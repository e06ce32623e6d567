import ElasticLayout.Proofs.ElasticOwnership
import ElasticLayout.Proofs.QueryTrace

/-!
# The handles that are due

A specification gives out the handles of variables and of constraints from two queues.  What is
removed goes to the front of its queue, under the next generation; what is added takes the front.
So a constraint that is dropped with its slack leaves its cells in the order in which the next
constraint with a slack will take them.

* `Spec.Due` -- the two queues;
* `Spec.Due.place`, `Spec.Due.withdraw`, `Spec.Due.insertVariable`, `Spec.Due.dropVariable` -- what
  the changes do to them;
* `Spec.Due.attachSlack` -- a slack takes one variable and two constraints;
* `Spec.Due.drop_of_rigid`, `Spec.Due.drop` -- what a dropped constraint leaves.
-/

namespace ElasticLayout.Spec

variable {α : Type}

/-! ### Two queues -/

/-- Storing a constraint leaves the extents alone. -/
theorem extent?_place (s : Spec α) (c : Constraint α) (id : VariableId) :
    (s.place c).2.registry.extent? id = s.registry.extent? id := by
  rw [← s.registry_retain c.left]
  rfl

/-- The handles due next, as long as the stores have at most so many cells. -/
structure Due (s : Spec α) (m n : Nat) (vs ks : List Slot) : Prop where
  tidy : s.Tidy
  variables_le : s.variableStore.cells.size ≤ m
  constraints_le : s.constraintStore.cells.size ≤ n
  variableQueue : s.variableStore.upcoming m = vs
  constraintQueue : s.constraintStore.upcoming n = ks

namespace Due

variable {s t : Spec α} {m n : Nat} {v k k₁ k₂ : Slot} {vs ks : List Slot}

theorem addressable (h : s.Due m n vs ks) (hm : m ≤ UInt32.size) (hn : n ≤ UInt32.size) :
    s.Addressable :=
  ⟨h.variables_le.trans hm, h.constraints_le.trans hn⟩

/-- Changes that leave the handles alone leave the queues alone. -/
theorem keep (h : s.Due m n vs ks) (hkeep : s.KeepsHandles t) : t.Due m n vs ks where
  tidy := hkeep.tidy
  variables_le := hkeep.variables_size.trans_le h.variables_le
  constraints_le := hkeep.constraints_size.trans_le h.constraints_le
  variableQueue := by rw [hkeep.variables_upcoming, h.variableQueue]
  constraintQueue := by rw [hkeep.constraints, h.constraintQueue]

theorem modifyVariable (h : s.Due m n vs ks) (id : VariableId) (f : Variable α → Variable α) :
    (s.modifyVariable id f).Due m n vs ks :=
  h.keep (s.keepsHandles_modifyVariable id f h.tidy)

theorem modifyConstraint (h : s.Due m n vs ks) (id : ConstraintId)
    (f : Constraint α → Constraint α) : (s.modifyConstraint id f).Due m n vs ks :=
  h.keep (s.keepsHandles_modifyConstraint id f h.tidy)

theorem retain (h : s.Due m n vs ks) (left : List (Summand α)) : (s.retain left).Due m n vs ks :=
  h.keep (.foldl (fun s _ => s.keepsHandles_modifyVariable _ _) left h.tidy)

theorem release (h : s.Due m n vs ks) (left : List (Summand α)) :
    (s.release left).Due m n vs ks :=
  h.keep (.foldl (fun s _ => s.keepsHandles_modifyVariable _ _) left h.tidy)

/-! ### Constraints -/

/-- A constraint takes the front of the queue. -/
theorem place (h : s.Due m n vs (k :: ks)) (c : Constraint α) :
    (s.place c).1 = ⟨k⟩ ∧ (s.place c).2.Due m n vs ks := by
  have hplaced := s.evolves_place c
  have hstore : (s.place c).2.constraintStore = (s.constraintStore.insert c).2 := by
    rw [← s.constraintStore_retain c.left]
    rfl
  have hsize : (s.place c).2.constraintStore.cells.size ≤ n := by
    rw [hstore]
    exact SlotStore.cells_size_insert_le_of_upcoming h.tidy.2 c h.constraints_le
      (by rw [h.constraintQueue]; exact List.cons_ne_nil k ks)
  have hfront := upcoming_place h.tidy (c := c) (k := (s.place c).1) (t := (s.place c).2) rfl hsize
  rw [h.constraintQueue, List.cons.injEq] at hfront
  refine ⟨ConstraintId.slot_inj.1 hfront.1.symm, hplaced.tidy h.tidy, ?_, hsize, ?_,
    hfront.2.symm⟩
  · exact hplaced.le_variables.trans h.variables_le
  · rw [upcoming_variables_place h.tidy, h.variableQueue]

/-- The cell of a constraint goes to the front of the queue. -/
theorem withdraw (h : s.Due m n vs ks) {id : ConstraintId} {c : Constraint α}
    (hc : s.getConstraint? id = some c) : (s.withdraw id).Due m n vs (id.slot.next :: ks) where
  tidy := (s.evolves_withdraw id).tidy h.tidy
  variables_le := (s.evolves_withdraw id).le_variables.trans h.variables_le
  constraints_le := (s.evolves_withdraw id).le_constraints.trans h.constraints_le
  variableQueue := by rw [upcoming_variables_withdraw h.tidy, h.variableQueue]
  constraintQueue := by rw [upcoming_withdraw h.tidy hc, h.constraintQueue]

/-! ### Variables -/

/-- A variable takes the front of the queue. -/
theorem insertVariable (h : s.Due m n (v :: vs) ks) (x : Variable α) :
    (s.variableStore.insert x).1 = v ∧
      ({ s with variableStore := (s.variableStore.insert x).2 } : Spec α).Due m n vs ks := by
  have hsize : (s.variableStore.insert x).2.cells.size ≤ m :=
    SlotStore.cells_size_insert_le_of_upcoming h.tidy.1 x h.variables_le
      (by rw [h.variableQueue]; exact List.cons_ne_nil v vs)
  have hfront := SlotStore.upcoming_insert h.tidy.1 x hsize
  rw [h.variableQueue, List.cons.injEq] at hfront
  exact ⟨hfront.1.symm, (s.evolves_insertVariable x).tidy h.tidy, hsize, h.constraints_le,
    hfront.2.symm, h.constraintQueue⟩

/-- The cells of a variable with one bound constraint go to the fronts of the queues. -/
theorem dropVariable (h : s.Due m n vs ks) {id : VariableId} {x : Variable α} {b : ConstraintId}
    {c : Constraint α} (hx : s.getVariable? id = some x) (hbounds : x.bounds = [b])
    (hb : s.getConstraint? b = some c) :
    (s.dropVariable id).Due m n (id.slot.next :: vs) (b.slot.next :: ks) := by
  have hwithdrawn := h.withdraw hb
  have hdrop : s.dropVariable id = { s.withdraw b with
      variableStore := (s.withdraw b).variableStore.erase id.slot } := by
    unfold Spec.dropVariable
    rw [hx]
    dsimp only
    rw [hbounds]
    rfl
  -- The withdrawal of the bound constraint leaves the variable live.
  have hlive : ∃ y, (s.withdraw b).getVariable? id = some y := by
    have hextent : (s.withdraw b).registry.extent? id = some x.extent := by
      rw [registry_withdraw]
      exact registry_extent?_eq_some hx
    obtain ⟨y, hy, -⟩ := getVariable?_of_extent? hextent
    exact ⟨y, hy⟩
  obtain ⟨y, hy⟩ := hlive
  rw [hdrop]
  exact {
    tidy := (evolves_eraseVariable _ id.slot).tidy hwithdrawn.tidy
    variables_le := (SlotStore.cells_size_erase _ _).trans_le hwithdrawn.variables_le
    constraints_le := hwithdrawn.constraints_le
    variableQueue := by
      show ((s.withdraw b).variableStore.erase id.slot).upcoming m = _
      rw [SlotStore.upcoming_erase hwithdrawn.tidy.1 hy, hwithdrawn.variableQueue]
    constraintQueue := hwithdrawn.constraintQueue }

/-! ### Slacks -/

variable [Scalar α] [RangeScalar α]

/-- The range of a new slack takes one constraint, for its lower end. -/
theorem applyRange_slack (h : s.Due m n vs (k :: ks)) {id : VariableId} {x : Variable α}
    (hx : s.getVariable? id = some x) (hlower : x.lowerBound = none)
    (hupper : x.upperBound = none) :
    (s.applyRange id 0 Variable.slackUpper).Due m n vs ks ∧
      ∃ y, (s.applyRange id 0 Variable.slackUpper).getVariable? id = some y ∧
        y.lowerBound = some ⟨k⟩ := by
  obtain ⟨s₁, s₂, s₃, lowerBound, upperBound, hstages⟩ :=
    exists_rangeStages hx 0 Variable.slackUpper
  have hdue₁ : s₁.Due m n vs (k :: ks) := hstages.ends ▸ h.modifyVariable id _
  -- The lower end is narrowed and the upper end is not.
  obtain ⟨hfront, hdue₂⟩ := hdue₁.place
    (.fresh [⟨1, id⟩] .ge (0 : α) 0 0 (.bound id))
  have hlowerEnd : (some (⟨k⟩ : ConstraintId),
      (s₁.place (.fresh [⟨1, id⟩] .ge (0 : α) 0 0 (.bound id))).2) = (lowerBound, s₂) := by
    rw [← hstages.lowerEnd, hlower]
    unfold syncBound
    rw [decide_eq_true RangeScalar.defaultLower_lt_zero, ← hfront]
  obtain ⟨hlow, hs₂⟩ := Prod.mk.inj hlowerEnd
  rw [hs₂] at hdue₂
  have hupperEnd : ((none : Option ConstraintId), s₂) = (upperBound, s₃) := by
    rw [← hstages.upperEnd, hupper]
    unfold syncBound
    rw [decide_eq_false (show ¬(Variable.slackUpper : α) < Variable.defaultUpper from
      RangeScalar.defaultUpper_not_lt)]
  obtain ⟨-, hs₃⟩ := Prod.mk.inj hupperEnd
  rw [hs₃] at hdue₂
  rw [hstages.links]
  refine ⟨hdue₂.modifyVariable id _, ?_⟩
  have hextent : s₃.registry.extent? id
      = some ({ x with lower := 0, upper := Variable.slackUpper } : Variable α).extent := by
    rw [← hs₃, ← hs₂, extent?_place, hstages.ends]
    refine registry_extent?_eq_some ?_
    rw [getVariable?_modifyVariable, if_pos rfl, hx, Option.map_some]
  obtain ⟨y, hy, -⟩ := getVariable?_of_extent? hextent
  refine ⟨{ y with lowerBound, upperBound }, ?_, hlow.symm⟩
  rw [getVariable?_modifyVariable, if_pos rfl, hy, Option.map_some]

/-- A slack takes the front of the one queue, and the two fronts of the other, even if the queues
are longer than there are handles, as long as there is a handle for the slack. -/
theorem attachSlack_of_room (h : s.Due m n (v :: vs) (k₁ :: k₂ :: ks))
    (hroom : (s.variableStore.insert (Variable.fresh none true : Variable α)).2.Addressable)
    {id : ConstraintId} {c : Constraint α} (hc : s.registry.constraint? id = some c) (a : α) :
    (s.attachSlack id c a).Due m n vs ks ∧ ((s.attachSlack id c a).Addressable →
      s.registry.SlackGiven (s.attachSlack id c a).registry id c ⟨⟨v⟩, a, ⟨k₂⟩⟩ ⟨k₁⟩) := by
  obtain ⟨s₁, s₂, s₃, s₄, slack, penalty, hstages⟩ := exists_slackStages s id c a
  obtain ⟨hfront, hdue₁⟩ := h.insertVariable (Variable.fresh none true : Variable α)
  rw [← hstages.inserted] at hdue₁
  have hslack : slack = ⟨v⟩ := by rw [hstages.handle, hfront]
  have hnew : s₁.getVariable? slack = some (Variable.fresh none true : Variable α) := by
    rw [hstages.inserted]
    show (s.variableStore.insert _).2.get? slack.slot = _
    rw [hstages.handle, SlotStore.insert_get? h.tidy.1 hroom, Function.update_self]
  obtain ⟨hdue₂, y, hy, hbound⟩ := hdue₁.applyRange_slack hnew rfl rfl
  rw [← hstages.ranged] at hdue₂ hy
  have hdue₃ : s₃.Due m n vs (k₂ :: ks) := hstages.extended ▸ (hdue₂.modifyConstraint id _).retain _
  obtain ⟨hpenalty, hdue₄⟩ := hdue₃.place (penaltyOf id c slack)
  rw [hstages.penalized] at hpenalty hdue₄
  have hpenalty : penalty = ⟨k₂⟩ := hpenalty
  have hdue : (s.attachSlack id c a).Due m n vs ks := hstages.linked ▸ hdue₄.modifyConstraint id _
  refine ⟨hdue, fun hafter => ?_⟩
  obtain ⟨e, b, -, g⟩ := slackGiven_attachSlack h.tidy hc a hafter
  -- What the constraint and the slack say in the end tells which handles were given.
  have helastic : e = ⟨slack, a, penalty⟩ := by
    have hafter := g.after
    rw [hstages.linked, registry_modifyConstraint, Registry.constraint?_putConstraint,
      if_pos rfl] at hafter
    obtain ⟨d, -, hd⟩ := Option.map_eq_some_iff.1 hafter
    exact (Option.some.inj (congrArg Constraint.elastic hd)).symm
  have hb : b = ⟨k₁⟩ := by
    have hextent : (s.attachSlack id c a).registry.extent? slack = some y.extent := by
      have hplaced : s₄ = (s₃.place (penaltyOf id c slack)).2 := by rw [hstages.penalized]
      rw [hstages.linked, registry_modifyConstraint, Registry.extent?_putConstraint, hplaced,
        extent?_place, hstages.extended, registry_retain, registry_modifyConstraint]
      exact registry_extent?_eq_some hy
    have hsame := g.slack
    rw [helastic, hextent, Option.some.injEq] at hsame
    have hlower := congrArg Extent.lowerBound hsame
    exact Option.some.inj (hlower.symm.trans hbound)
  rw [← hslack, ← hpenalty, ← hb, ← helastic]
  exact g

/-- **A slack takes the front of the one queue, and the two fronts of the other**: for itself, for
its bound constraint and for its penalty. -/
theorem attachSlack (h : s.Due m n (v :: vs) (k₁ :: k₂ :: ks)) (hm : m ≤ UInt32.size)
    (hn : n ≤ UInt32.size) {id : ConstraintId} {c : Constraint α}
    (hc : s.registry.constraint? id = some c) (a : α) :
    s.registry.SlackGiven (s.attachSlack id c a).registry id c ⟨⟨v⟩, a, ⟨k₂⟩⟩ ⟨k₁⟩ ∧
      (s.attachSlack id c a).Due m n vs ks := by
  have hinserted := (h.insertVariable (Variable.fresh none true : Variable α)).2
  obtain ⟨hdue, hgiven⟩ := h.attachSlack_of_room (hinserted.addressable hm hn).1 hc a
  exact ⟨hgiven (hdue.addressable hm hn), hdue⟩

/-! ### Dropped constraints -/

omit [Scalar α] [RangeScalar α] in
/-- A constraint without slack leaves its cell. -/
theorem drop_of_rigid (h : s.Due m n vs ks) {id : ConstraintId} {c : Constraint α}
    (hc : s.registry.constraint? id = some c) (hrigid : c.elastic = none) :
    (s.drop id).Due m n vs (id.slot.next :: ks) := by
  have hdetach : s.detach id = s := by
    refine detach_of_rigid fun d hd => ?_
    rw [← Option.some.inj (hc.symm.trans hd)]
    exact hrigid
  unfold Spec.drop
  rw [hdetach]
  exact h.withdraw hc

omit [RangeScalar α] in
/-- **An elastic constraint leaves its cells in the order in which the next one will take them.** -/
theorem drop (h : s.Due m n vs ks) {id b : ConstraintId} {c : Constraint α} {e : Elastic α}
    (hc : s.registry.constraint? id = some c) (he : c.elastic = some e)
    (g : (s.detach id).registry.SlackGiven s.registry id c.shown e b) :
    (s.drop id).Due m n (e.slack.slot.next :: vs)
      (id.slot.next :: b.slot.next :: e.penalty.slot.next :: ks) := by
  obtain ⟨q, hq, -⟩ := g.penalty
  obtain ⟨d, hd, -⟩ := g.bound
  obtain ⟨hbid, hpid, hbp⟩ := g.distinct
  -- The marks are taken off first, then the penalty goes, the bound constraint with the slack, and
  -- the constraint itself.
  obtain ⟨s₁, s₂, hstages⟩ := exists_detachStages hc he
  have hdue₁ : s₁.Due m n vs ks := hstages.released ▸ (h.modifyConstraint id _).release _
  have hdue₂ : s₂.Due m n vs (e.penalty.slot.next :: ks) :=
    hstages.withdrawn ▸ hdue₁.withdraw ((hstages.constraint?₁ hpid).trans hq)
  obtain ⟨y, hy, hyx⟩ := getVariable?_of_extent? ((hstages.extent?₂ e.slack).trans g.slack)
  have hbounds : y.bounds = [b] := by
    show y.extent.bounds = [b]
    rw [hyx]
    rfl
  have hdue₃ := hdue₂.dropVariable hy hbounds ((hstages.constraint?₂ hbid hbp).trans hd)
  rw [← hstages.dropped] at hdue₃
  exact hdue₃.withdraw g.before

end Due

end ElasticLayout.Spec
