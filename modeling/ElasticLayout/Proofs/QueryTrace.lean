import ElasticLayout.Proofs.References
import ElasticLayout.Proofs.Relisting

/-!
# The trace of a size query

A size query takes two cells for its pins, and vacates them in the order in which it took them.  So
the two cells that are due next are afterwards due in the other order: nothing but the handles of
later constraints, and with them the order of later rows, tells that there was a query.

* `Spec.pinSwap` -- the renaming that a query leaves behind;
* `Spec.mirrors_sizeQuery` -- what a query leaves behind;
* `Spec.Follows` -- what a later call does, with and without the query;
* `Spec.Reachable.query_trace` -- the main result;
* `Spec.query_reorders_rows` -- two later constraints whose rows come in another order.
-/

namespace ElasticLayout.Spec

variable {α : Type}

/-! ### The handles after a query -/

theorem constraintStore_retain (s : Spec α) (left : List (Summand α)) :
    (s.retain left).constraintStore = s.constraintStore := by
  unfold retain
  refine foldl_keeps constraintStore (fun _ _ => ?_) left s
  rfl

theorem constraintStore_release (s : Spec α) (left : List (Summand α)) :
    (s.release left).constraintStore = s.constraintStore := by
  unfold release
  refine foldl_keeps constraintStore (fun _ _ => ?_) left s
  rfl

theorem constraintStore_withdraw {s : Spec α} {k : ConstraintId} {c : Constraint α}
    (hc : s.getConstraint? k = some c) :
    (s.withdraw k).constraintStore = s.constraintStore.erase k.slot := by
  rw [withdraw_of_live hc]
  exact constraintStore_release _ _

/-- A constraint is stored under the next handle. -/
theorem upcoming_place {s t : Spec α} (hs : s.Tidy) {c : Constraint α} {k : ConstraintId}
    (h : s.place c = (k, t)) {n : Nat} (hn : t.constraintStore.cells.size ≤ n) :
    s.constraintStore.upcoming n = k.slot :: t.constraintStore.upcoming n := by
  have hstore : t.constraintStore = (s.constraintStore.insert c).2 := by
    rw [← s.constraintStore_retain c.left]
    exact (congrArg (fun p => p.2.constraintStore) h).symm
  have hslot : k.slot = (s.constraintStore.insert c).1 := by
    rw [← s.constraintStore_retain c.left]
    exact (congrArg (fun p => p.1.slot) h).symm
  rw [hstore] at hn ⊢
  rw [hslot]
  exact SlotStore.upcoming_insert hs.2 c hn

/-- A cell that a constraint leaves is due next. -/
theorem upcoming_withdraw {s : Spec α} (hs : s.Tidy) {k : ConstraintId} {c : Constraint α}
    (hc : s.getConstraint? k = some c) (n : Nat) :
    (s.withdraw k).constraintStore.upcoming n = k.slot.next :: s.constraintStore.upcoming n := by
  rw [constraintStore_withdraw hc]
  exact SlotStore.upcoming_erase hs.2 hc n

theorem upcoming_variables_place {s : Spec α} (hs : s.Tidy) (c : Constraint α) :
    (s.place c).2.variableStore.upcoming = s.variableStore.upcoming :=
  (KeepsHandles.foldl (fun s _ => s.keepsHandles_modifyVariable _ _) c.left hs).variables_upcoming

theorem upcoming_variables_withdraw {s : Spec α} (hs : s.Tidy) (k : ConstraintId) :
    (s.withdraw k).variableStore.upcoming = s.variableStore.upcoming := by
  unfold withdraw
  split
  · rfl
  · rename_i c hc
    exact (KeepsHandles.foldl (fun s _ => s.keepsHandles_modifyVariable _ _) c.left
      ((s.evolves_eraseConstraint k.slot).tidy hs)).variables_upcoming

variable [Scalar α]

/-- The renaming that a size query leaves behind: the two cells due next are exchanged, each under
its next generation. -/
def pinSwap (s : Spec α) : Equiv.Perm Slot :=
  match s.constraintStore.upcoming (s.constraintStore.cells.size + 2) with
  | a :: b :: _ => Slot.exchange a b
  | _ => 1

variable {s t s₀ s₁ s₂ : Spec α} {width height : VariableId} {target : α} {k₁ k₂ : ConstraintId}

theorem QueryStages.evolves₁ (h : s.QueryStages t width height target s₀ s₁ s₂ k₁ k₂) :
    s₀.Evolves s₁ 0 1 := by
  have hplace := s₀.evolves_place (s₀.pinConstraint height target)
  rwa [h.heightPin] at hplace

theorem QueryStages.evolves₂ (h : s.QueryStages t width height target s₀ s₁ s₂ k₁ k₂) :
    s₁.Evolves s₂ 0 1 := by
  have hplace := s₁.evolves_place (s₁.pinConstraint width target)
  rwa [h.widthPin] at hplace

/-- **The pins take the two cells that are due next, and give them back in the same order.** -/
theorem QueryStages.upcoming (h : s.QueryStages t width height target s₀ s₁ s₂ k₁ k₂)
    (hs : s.Tidy) :
    s.constraintStore.cells.size ≤ t.constraintStore.cells.size ∧
    t.constraintStore.cells.size ≤ s.constraintStore.cells.size + 2 ∧
    s.constraintStore.upcoming t.constraintStore.cells.size = k₁.slot :: k₂.slot ::
      s₂.constraintStore.upcoming t.constraintStore.cells.size ∧
    t.constraintStore.upcoming t.constraintStore.cells.size = k₂.slot.next :: k₁.slot.next ::
      s₂.constraintStore.upcoming t.constraintStore.cells.size := by
  have hsuspended : s.KeepsHandles s₀ :=
    h.suspended ▸ .foldl (keepsHandles_setSuspended true) s.suspendable hs
  have hfirst := h.evolves₁
  have hsecond := h.evolves₂
  have hsolved : s₂.KeepsHandles s₂.solve := keepsHandles_solve (hsecond.tidy h.tidy₁)
  obtain ⟨hlive₁, hlive₂⟩ := h.pins_live
  rw [registry_constraint?] at hlive₁ hlive₂
  have htidy₄ : (s₂.solve.withdraw k₁).Tidy := (evolves_withdraw _ k₁).tidy hsolved.tidy
  have hrestored : ((s₂.solve.withdraw k₁).withdraw k₂).KeepsHandles t :=
    h.restored ▸ .foldl (keepsHandles_setSuspended false) s.suspendable
      ((evolves_withdraw _ k₂).tidy htidy₄)
  have hsize : t.constraintStore.cells.size = s₂.constraintStore.cells.size := by
    rw [hrestored.constraints_size, constraintStore_withdraw hlive₂, SlotStore.cells_size_erase,
      constraintStore_withdraw hlive₁, SlotStore.cells_size_erase, hsolved.constraints_size]
  have hsize₀ := hsuspended.constraints_size
  have hle₁ := hfirst.constraints_le
  have hle₂ := hsecond.constraints_le
  have hadd₁ := hfirst.le_constraints
  have hadd₂ := hsecond.le_constraints
  refine ⟨by omega, by omega, ?_, ?_⟩
  · rw [← hsuspended.constraints, upcoming_place h.tidy₀ h.heightPin (by omega),
      upcoming_place h.tidy₁ h.widthPin (by omega)]
  · rw [hrestored.constraints, upcoming_withdraw htidy₄ hlive₂,
      upcoming_withdraw hsolved.tidy hlive₁, hsolved.constraints]

/-- The two cells due next change places. -/
theorem QueryStages.pinSwap_eq (h : s.QueryStages t width height target s₀ s₁ s₂ k₁ k₂)
    (hs : s.Tidy) : s.pinSwap = Slot.exchange k₁.slot k₂.slot := by
  obtain ⟨hle, hsize, hbefore, -⟩ := h.upcoming hs
  unfold pinSwap
  rw [s.constraintStore.upcoming_append hle hsize, hbefore]
  rfl

theorem QueryStages.constraints_trail (h : s.QueryStages t width height target s₀ s₁ s₂ k₁ k₂)
    (hs : s.Tidy) (hroom : t.Addressable) :
    s.constraintStore.Trails s.pinSwap t.constraintStore := by
  obtain ⟨hle, -, hbefore, hafter⟩ := h.upcoming hs
  rw [h.pinSwap_eq hs]
  exact .exchange hs.2 hle hroom.2 hbefore hafter

theorem QueryStages.variables_trail (h : s.QueryStages t width height target s₀ s₁ s₂ k₁ k₂) :
    s.variableStore.Trails 1 t.variableStore := by
  have hfirst := h.evolves₁
  have hsecond := h.evolves₂
  have hupcoming₁ := upcoming_variables_place h.tidy₀ (s₀.pinConstraint height target)
  have hupcoming₂ := upcoming_variables_place h.tidy₁ (s₁.pinConstraint width target)
  rw [h.heightPin] at hupcoming₁
  rw [h.widthPin] at hupcoming₂
  have hsolved : s₂.KeepsHandles s₂.solve := keepsHandles_solve (hsecond.tidy h.tidy₁)
  have hthird := s₂.solve.evolves_withdraw k₁
  have hfourth := (s₂.solve.withdraw k₁).evolves_withdraw k₂
  have hstore₀ : s₀.variableStore = s.variableStore := by
    rw [h.suspended, variableStore_foldl_setSuspended]
  have hstore : t.variableStore = ((s₂.solve.withdraw k₁).withdraw k₂).variableStore := by
    rw [h.restored, variableStore_foldl_setSuspended]
  refine (SlotStore.Trails.refl s.variableStore).congr rfl rfl ?_ ?_
  · rw [hstore, upcoming_variables_withdraw (hthird.tidy hsolved.tidy),
      upcoming_variables_withdraw hsolved.tidy, hsolved.variables_upcoming, hupcoming₂,
      hupcoming₁, hstore₀]
  · have hsolve := hsolved.variables_size
    have hle₁ := hfirst.variables_le
    have hle₂ := hsecond.variables_le
    have hle₃ := hthird.variables_le
    have hle₄ := hfourth.variables_le
    have hadd₁ := hfirst.le_variables
    have hadd₂ := hsecond.le_variables
    have hadd₃ := hthird.le_variables
    have hadd₄ := hfourth.le_variables
    rw [hstore, ← hstore₀]
    omega

/-! ### What a query leaves behind -/

/-- A constraint keeps its handles if all live constraints do. -/
theorem rename_eq_of_fixed {ρ : Equiv.Perm Slot} (howned : s.registry.Owned none)
    (hfixed : ∀ k c, s.getConstraint? k = some c → k.rename ρ = k) {k : ConstraintId}
    {c : Constraint α} (hc : s.getConstraint? k = some c) : c.rename ρ = c := by
  have hrole : c.role.rename ρ = c.role := by
    cases hrole : c.role with
    | user => rfl
    | bound id => rfl
    | slackPenalty j =>
      obtain ⟨d, -, hd, -⟩ := howned.penalty_owner k c j hc hrole
      exact congrArg Role.slackPenalty (hfixed j d hd)
  have helastic : c.elastic.map (·.rename ρ) = c.elastic := by
    cases he : c.elastic with
    | none => rfl
    | some e =>
      obtain ⟨q, hq, -⟩ := (howned.owns k c e hc he).penalty
      show some { e with penalty := e.penalty.rename ρ } = some e
      rw [hfixed e.penalty q hq]
  unfold Constraint.rename
  rw [hrole, helastic]

/-- A standing keeps its bound constraints if all live constraints keep their handles. -/
theorem standing_rename_eq_of_fixed {ρ : Equiv.Perm Slot} (howned : s.registry.Owned none)
    (hfixed : ∀ k c, s.getConstraint? k = some c → k.rename ρ = k) {id : VariableId}
    {x : Standing α} (hx : s.standing? id = some x) : x.rename ρ = x := by
  obtain ⟨v, hv, rfl⟩ := Option.map_eq_some_iff.1 hx
  have hrange := howned.range id v.extent (registry_extent?_eq_some hv)
  have hend : ∀ {handle : Option ConstraintId} {relation : Relation} {limit : α} {needed : Prop},
      s.registry.EndKept id handle relation limit needed → handle.map (·.rename ρ) = handle := by
    intro handle relation limit needed hkept
    cases handle with
    | none => rfl
    | some k =>
      obtain ⟨c, hc, -⟩ := hkept.2 k rfl
      exact congrArg some (hfixed k c hc)
  show ({ v.standing with
    lowerBound := v.lowerBound.map (·.rename ρ)
    upperBound := v.upperBound.map (·.rename ρ) } : Standing α) = v.standing
  rw [show v.lowerBound.map (·.rename ρ) = v.lowerBound from hend hrange.lower,
    show v.upperBound.map (·.rename ρ) = v.upperBound from hend hrange.upper]
  rfl

/-- **A query exchanges the two cells due next, and leaves everything else.** -/
theorem mirrors_sizeQuery (hs : s.Tidy) (howned : s.registry.Owned none)
    {unbounded size : Size α} (h : s.sizeQuery width height target unbounded = .ok (size, t))
    (hroom : t.Addressable) : Mirrors s.pinSwap s t := by
  obtain ⟨s₀, s₁, s₂, k₁, k₂, hstages⟩ := exists_queryStages hs h hroom
  have hsame := sameButValues_sizeQuery hs howned h hroom
  have hfixed : ∀ k c, s.getConstraint? k = some c → k.rename s.pinSwap = k := by
    intro k c hc
    obtain ⟨-, -, hbefore, -⟩ := hstages.upcoming hs
    have hindex : ∀ a ∈ s.constraintStore.upcoming t.constraintStore.cells.size,
        k.slot.index ≠ a.index := fun a ha =>
      SlotStore.index_ne_of_mem_upcoming hs.2 hroom.2 hc ha
    rw [hbefore] at hindex
    rw [hstages.pinSwap_eq hs]
    exact ConstraintId.slot_inj.1 (Slot.exchange_of_ne (hindex _ (by simp)) (hindex _ (by simp)))
  refine ⟨fun k => ?_, fun v => ?_, hsame.options, hstages.constraints_trail hs hroom,
    hstages.variables_trail, hs, (evolves_sizeQuery h).tidy hs⟩
  · rw [hsame.constraints]
    cases hc : s.getConstraint? k with
    | some c =>
      rw [hfixed k c hc, hc, Option.map_some, rename_eq_of_fixed howned hfixed hc]
    | none =>
      -- Were it live, it would keep its handle, and be the one that is renamed.
      refine Option.eq_none_iff_forall_ne_some.2 fun c hlive => ?_
      have hkept : k.rename s.pinSwap = k := ConstraintId.rename_inj.1 (hfixed _ c hlive)
      rw [hkept, hc] at hlive
      exact absurd hlive (by simp)
  · rw [hsame.standings]
    cases hx : s.standing? v with
    | none => rfl
    | some x => rw [Option.map_some, standing_rename_eq_of_fixed howned hfixed hx]

/-! ### The code of a call -/

omit [Scalar α] in
theorem result_release (s : Spec α) (left : List (Summand α)) :
    (s.release left).result = s.result := by
  unfold release
  refine foldl_keeps Spec.result (fun _ _ => ?_) left s
  rfl

omit [Scalar α] in
theorem result_withdraw (s : Spec α) (k : ConstraintId) : (s.withdraw k).result = s.result :=
  withdraw_keeps Spec.result (fun _ _ => rfl) result_release s k

omit [Scalar α] in
theorem result_dropVariable (s : Spec α) (id : VariableId) :
    (s.dropVariable id).result = s.result := by
  unfold dropVariable
  split
  · rfl
  · exact foldl_keeps Spec.result result_withdraw _ s

omit [Scalar α] in
theorem result_drop (s : Spec α) (k : ConstraintId) : (s.drop k).result = s.result := by
  have hdetach : (s.detach k).result = s.result := by
    unfold detach
    split
    · rfl
    · exact (result_dropVariable _ _).trans ((result_withdraw _ _).trans (result_release _ _))
  exact (result_withdraw _ k).trans hdetach

omit [Scalar α] in
theorem result_setSuspended (suspended : Bool) (s : Spec α) (k : ConstraintId) :
    (s.setSuspended suspended k).result = s.result := by
  rw [setSuspended_eq_foldl]
  refine foldl_keeps Spec.result (fun _ _ => ?_) _ s
  rfl

/-- A query ends with the code of what it solves. -/
theorem result_afterQuery {u : Spec α} (h : s.queried? width height target = some u)
    (unbounded : Size α) :
    (s.afterQuery (s.sizeQuery width height target unbounded)).1.result = u.solve.result := by
  obtain ⟨rfl, size, t, hquery⟩ := sizeQuery_of_queried?_eq_some h unbounded
  obtain ⟨-, -, ht⟩ := sizeQuery_ok hquery
  rw [hquery]
  show t.result = _
  rw [ht, foldl_keeps Spec.result (result_setSuspended false), result_drop, result_drop]

/-- A call that solves something ends with the code of that. -/
theorem result_perform {op : Operation α} {u : Spec α} (h : s.solvedBy? op = some u) :
    (s.perform op).1.result = u.solve.result := by
  cases op with
  | solve =>
    obtain rfl := Option.some.inj h
    rfl
  | minSize width height => exact result_afterQuery h Size.zero
  | maxSize width height => exact result_afterQuery h Size.unbounded
  | _ => exact absurd h (by simp [solvedBy?])

/-! ### Later calls -/

/-- What is solved on the one side corresponds to what is solved on the other: the columns are the
same, and so are the rows, in the order of the renamed handles.  If that is the order of the
handles, the problem is the same, and so are code and values. -/
structure SolvesAlike (ρ : Equiv.Perm Slot) (u v : Spec α) : Prop where
  columns : v.columns = u.columns
  problem : v.problem = u.relistedProblem ρ
  rows : v.problem.hard.Perm u.problem.hard ∧ v.problem.soft.Perm u.problem.soft
  agrees : u.InOrder ρ → SolveAgrees u v

theorem Mirrors.solvesAlike {ρ : Equiv.Perm Slot} {u v : Spec α} (h : Mirrors ρ u v)
    (hroom : v.Addressable) : SolvesAlike ρ u v := by
  have hproblem := h.problem_eq hroom
  refine ⟨h.columns_eq hroom, hproblem, ?_, h.solve_agrees hroom⟩
  rw [hproblem]
  exact u.relistedProblem_perm ρ

/-- A call does on the one side what it does on the other, but for the handles of constraints. -/
structure Follows (ρ : Equiv.Perm Slot) (s t : Spec α) (op : Operation α) : Prop where
  /-- The specifications are the same before the call, and will give out handles alike. -/
  mirrors : Mirrors ρ s t
  /-- A call that solves nothing is answered alike. -/
  answer : s.solvedBy? op = none → (t.perform (op.rename ρ)).2 = (s.perform op).2.rename ρ
  /-- A call that solves something solves it on both sides, and ends with the code of that. -/
  solved : ∀ u, s.solvedBy? op = some u → ∃ v, t.solvedBy? (op.rename ρ) = some v ∧
    SolvesAlike ρ u v ∧ (s.perform op).1.result = u.solve.result ∧
      (t.perform (op.rename ρ)).1.result = v.solve.result

/-- A query that is answered has had handles for its pins. -/
theorem addressable_queried? (unbounded : Size α) {u : Spec α}
    (hroom : (s.afterQuery (s.sizeQuery width height target unbounded)).1.Addressable)
    (h : s.queried? width height target = some u) : u.Addressable := by
  obtain ⟨rfl, size, t, hquery⟩ := sizeQuery_of_queried?_eq_some h unbounded
  rw [hquery] at hroom
  exact (evolves_pinned_sizeQuery hquery).addressable hroom

/-- What a call solves on the one side mirrors what it solves on the other. -/
theorem Mirrors.solvedBy? {ρ : Equiv.Perm Slot} (h : Mirrors ρ s t) {op : Operation α}
    (hroom : (t.perform (op.rename ρ)).1.Addressable) {u : Spec α}
    (hu : s.solvedBy? op = some u) :
    ∃ v, t.solvedBy? (op.rename ρ) = some v ∧ Mirrors ρ u v ∧ v.Addressable := by
  cases op with
  | solve =>
    obtain rfl := Option.some.inj hu
    exact ⟨t, rfl, h, t.evolves_solve.addressable hroom⟩
  | minSize width height =>
    obtain ⟨v, hv, hmirrors⟩ := h.queried? hu fun v hv =>
      addressable_queried? Size.zero hroom hv
    exact ⟨v, hv, hmirrors, addressable_queried? _ hroom hv⟩
  | maxSize width height =>
    have hu : s.queried? width height t.options.largestSize = some u := by
      rw [h.options]
      exact hu
    obtain ⟨v, hv, hmirrors⟩ := h.queried? hu fun v hv => addressable_queried? _ hroom hv
    exact ⟨v, hv, hmirrors, addressable_queried? _ hroom hv⟩
  | _ => exact absurd hu (by simp [Spec.solvedBy?])

/-- **A later call does what it would have done, but for the handles of constraints.** -/
theorem Mirrors.follows {ρ : Equiv.Perm Slot} (h : Mirrors ρ s t) {op : Operation α}
    (hroom : (t.perform (op.rename ρ)).1.Addressable) : Follows ρ s t op := by
  refine ⟨h, (h.perform op hroom).2, fun u hu => ?_⟩
  obtain ⟨v, hv, hmirrors, hroom'⟩ := h.solvedBy? hroom hu
  exact ⟨v, hv, hmirrors.solvesAlike hroom', result_perform hu, result_perform hv⟩

/-- What a size query leaves behind: after every later history, with and without the query, every
call does the same but for the handles of constraints, as long as there are handles and the exchange
of the two cells keeps the order of the cascades. -/
def LeavesSwap (s t : Spec α) : Prop :=
  ∀ (history : List (Operation α)) (op : Operation α), s.KeepsCascades s.pinSwap history →
    ((t.run (history.map (·.rename s.pinSwap))).perform (op.rename s.pinSwap)).1.Addressable →
    Follows s.pinSwap (s.run history) (t.run (history.map (·.rename s.pinSwap))) op

/-- **The trace of a size query.**  Asked for live variables, a query is answered, and exchanges the
two cells that are due next.  Later calls do what they would have done without the query, under
other handles; what they solve has the same columns and the same rows, in the order of the other
handles. Where the exchange keeps the order of the live constraints, it is the same problem, with
the same code and the same values. -/
theorem Reachable.query_trace [RangeScalar α] (hs : s.Reachable)
    (hwidth : (s.getVariable? width).isSome = true)
    (hheight : (s.getVariable? height).isSome = true) :
    (∃ size t, s.minSize width height = .ok (size, t) ∧ s.LeavesSwap t) ∧
    (∃ size t, s.maxSize width height = .ok (size, t) ∧ s.LeavesSwap t) := by
  obtain ⟨htidy, howned⟩ := hs.tidy_owned
  have hleaves : ∀ {target : α} {unbounded size : Size α} {t : Spec α},
      s.sizeQuery width height target unbounded = .ok (size, t) → s.LeavesSwap t := by
    intro target unbounded size t h history op horder hroom
    have hrun : (t.run (history.map (·.rename s.pinSwap))).Addressable :=
      (step_perform _ _).evolves.addressable hroom
    have hmirrors := mirrors_sizeQuery htidy howned h ((evolves_run _ t).addressable hrun)
    exact (hmirrors.run horder hrun).follows hroom
  obtain ⟨size, t, h⟩ := s.exists_sizeQuery hwidth hheight 0 Size.zero
  obtain ⟨size', t', h'⟩ := s.exists_sizeQuery hwidth hheight s.options.largestSize Size.unbounded
  exact ⟨⟨size, t, h, hleaves h⟩, ⟨size', t', h', hleaves h'⟩⟩

theorem run_cons (s : Spec α) (op : Operation α) (history : List (Operation α)) :
    s.run (op :: history) = (s.perform op).1.run history := rfl

theorem run_concat (s : Spec α) (history : List (Operation α)) (op : Operation α) :
    s.run (history ++ [op]) = ((s.run history).perform op).1 :=
  List.foldl_concat ..

/-- After a short history there are handles for one call more. -/
theorem addressable_perform_run (options : Options α) {history : List (Operation α)}
    (op : Operation α) (h : (history.length + 1) * 8 ≤ UInt32.size) :
    ((({ options } : Spec α).run history).perform op).1.Addressable := by
  have hnext : (({ options } : Spec α).run (history ++ [op])).Reachable :=
    reachable_run options (by rwa [List.length_append])
  rw [run_concat] at hnext
  exact hnext.1

/-- After a query for the size of the only variable, two constraints come under exchanged handles,
and their rows in the other order; with only one of them left it is the same problem. -/
theorem query_trace_of_two_constraints :
    let s : Spec Float := ({ options := .default } : Spec Float).run [.addVariable none]
    let both : List (Operation Float) := [.addConstraint [1] [⟨⟨0, 0⟩⟩] .le 5 0 0,
      .addConstraint [1] [⟨⟨0, 0⟩⟩] .le 1 0 0]
    let one : List (Operation Float) := both ++ [.removeConstraint ⟨⟨1, 0⟩⟩]
    ∃ size t, s.minSize ⟨⟨0, 0⟩⟩ ⟨⟨0, 0⟩⟩ = .ok (size, t) ∧
      Follows s.pinSwap (s.run both) (t.run (both.map (·.rename s.pinSwap))) .solve ∧
      ¬(s.run both).InOrder s.pinSwap ∧
      SolveAgrees (s.run one) (t.run (one.map (·.rename s.pinSwap))) := by
  intro s both one
  have hs : s.Reachable := reachable_run _ (by decide)
  have hlive : (s.getVariable? ⟨⟨0, 0⟩⟩).isSome = true := by decide
  obtain ⟨⟨size, t, h, hleaves⟩, -⟩ := hs.query_trace hlive hlive
  have ht : (s.perform (.minSize ⟨⟨0, 0⟩⟩ ⟨⟨0, 0⟩⟩)).1 = t := by
    rw [perform, h]
    rfl
  have hroom : ∀ (history : List (Operation Float)) (op : Operation Float),
      history.length ≤ 3 → ((t.run history).perform op).1.Addressable := by
    intro history op hlength
    have hrun : ((t.run history).perform op).1 = ({ options := .default } : Spec Float).run
        (.addVariable none :: .minSize ⟨⟨0, 0⟩⟩ ⟨⟨0, 0⟩⟩ :: (history ++ [op])) := by
      rw [run_cons, run_cons, run_concat, ← ht]
      rfl
    rw [hrun]
    refine (reachable_run _ ?_).1
    simp only [List.length_cons, List.length_append, List.length_nil]
    exact le_trans (by omega : (history.length + (0 + 1) + 1 + 1) * 8 ≤ 48) (by decide)
  have hboth := hleaves both .solve ⟨trivial, trivial, trivial⟩
    (hroom _ _ (by simp [both]))
  have hone := hleaves one .solve ⟨trivial, trivial, trivial, trivial⟩
    (hroom _ _ (by simp [one, both]))
  obtain ⟨v, hv, halike, -⟩ := hone.solved _ rfl
  obtain rfl := Option.some.inj hv
  exact ⟨size, t, h, hboth, by decide +kernel, halike.agrees (by decide +kernel)⟩

/-- **Rows may come in another order after a query, and the solve may fail for it.**  After a query
for the size of the only variable, `x <= 5` and `x <= 1` are listed in the other order, and the
numbers break down; without the query there is an optimum. -/
theorem query_reorders_rows : ∃ (s : Spec Float) (size : Size Float) (t : Spec Float)
    (history : List (Operation Float)), s.Reachable ∧
      s.minSize ⟨⟨0, 0⟩⟩ ⟨⟨0, 0⟩⟩ = .ok (size, t) ∧
      (∀ op ∈ history, ∀ ρ, op.rename ρ = op) ∧
      (t.run history).problem ≠ (s.run history).problem ∧
      (s.run history).solve.result = .optimal ∧
      (t.run history).solve.result = .numFailure := by
  obtain ⟨s, hs⟩ : ∃ s : Spec Float,
    s = ({ options := .default } : Spec Float).run [.addVariable none] := ⟨_, rfl⟩
  obtain ⟨history, hhistory⟩ : ∃ history : List (Operation Float),
    history = [.addConstraint [1] [⟨⟨0, 0⟩⟩] .le 5 0 0,
      .addConstraint [1] [⟨⟨0, 0⟩⟩] .le 1 0 0] := ⟨_, rfl⟩
  have hlive : (s.getVariable? ⟨⟨0, 0⟩⟩).isSome = true := by
    rw [hs]
    decide
  obtain ⟨size, t, h⟩ := s.exists_sizeQuery hlive hlive 0 Size.zero
  have ht : t = (s.perform (.minSize ⟨⟨0, 0⟩⟩ ⟨⟨0, 0⟩⟩)).1 := by
    show t = (s.afterQuery (s.sizeQuery _ _ 0 Size.zero)).1
    rw [h]
    rfl
  have hoptimal : (s.run history).solve.result = .optimal := by
    rw [hhistory, hs]
    decide +kernel
  have hfailure : (t.run history).solve.result = .numFailure := by
    rw [hhistory, ht, hs]
    decide +kernel
  have hfirst : ((s.run history).problem.hard.head?.any (·.rhs == 5)) = true := by
    rw [hhistory, hs]
    decide +kernel
  have hother : ((t.run history).problem.hard.head?.any (·.rhs == 5)) = false := by
    rw [hhistory, ht, hs]
    decide +kernel
  refine ⟨s, size, t, history, hs ▸ reachable_run _ (by decide), h, ?_, ?_, hoptimal, hfailure⟩
  · rw [hhistory]
    simp [Operation.rename]
  · intro heq
    rw [heq, hfirst] at hother
    exact absurd hother (by simp)

end ElasticLayout.Spec
