import ElasticLayout.Proofs.Stages
import ElasticLayout.Proofs.Standing
import ElasticLayout.Proofs.Vacancies

/-!
# The same specification under other handles

Two specifications may hold the same constraints under different handles.  If both also give out
handles alike, the same calls keep them the same: each call names the handles of its own side, and
new constraints come under handles that belong together.

* `ConstraintId.rename`, `Constraint.rename`, `Standing.rename` -- other handles for constraints;
* `Spec.Mirrors` -- two specifications are the same up to the handles of constraints;
* `Spec.Mirrors.modifyVariable` ... `Spec.Mirrors.eraseConstraint` -- single entries;
* `Spec.Mirrors.place` ... `Spec.Mirrors.mutate` -- one lemma for every change.
-/

namespace ElasticLayout

variable {α : Type}

/-! ### Renaming -/

/-- A handle, renamed. -/
def ConstraintId.rename (ρ : Equiv.Perm Slot) (k : ConstraintId) : ConstraintId := ⟨ρ k.slot⟩

theorem ConstraintId.rename_inj {ρ : Equiv.Perm Slot} {j k : ConstraintId} :
    j.rename ρ = k.rename ρ ↔ j = k := by
  rw [← ConstraintId.slot_inj, ← ConstraintId.slot_inj (a := j)]
  exact ρ.apply_eq_iff_eq

theorem ConstraintId.exists_rename (ρ : Equiv.Perm Slot) (k : ConstraintId) :
    ∃ j : ConstraintId, j.rename ρ = k :=
  ⟨⟨ρ.symm k.slot⟩, ConstraintId.slot_inj.1 (ρ.apply_symm_apply k.slot)⟩

/-- The owner of an internal constraint, renamed. -/
def Role.rename (ρ : Equiv.Perm Slot) : Role → Role
  | .user => .user
  | .bound id => .bound id
  | .slackPenalty k => .slackPenalty (k.rename ρ)

@[simp] theorem Role.rename_eq_user {ρ : Equiv.Perm Slot} {role : Role} :
    role.rename ρ = .user ↔ role = .user := by
  cases role <;> simp [rename]

/-- What an elastic constraint owns, renamed. -/
def Elastic.rename (ρ : Equiv.Perm Slot) (e : Elastic α) : Elastic α :=
  { e with penalty := e.penalty.rename ρ }

/-- A constraint with renamed handles. -/
def Constraint.rename (ρ : Equiv.Perm Slot) (c : Constraint α) : Constraint α :=
  { c with role := c.role.rename ρ, elastic := c.elastic.map (·.rename ρ) }

/-- A standing with renamed bound constraints. -/
def Standing.rename (ρ : Equiv.Perm Slot) (x : Standing α) : Standing α :=
  { x with
    lowerBound := x.lowerBound.map (·.rename ρ)
    upperBound := x.upperBound.map (·.rename ρ) }

namespace Spec

/-! ### Specifications that mirror each other -/

/-- Two specifications are the same up to the handles of constraints and the values of variables,
and give out handles alike. -/
structure Mirrors (ρ : Equiv.Perm Slot) (s t : Spec α) : Prop where
  /-- The constraints are the same, under renamed handles. -/
  constraint : ∀ k, t.getConstraint? (k.rename ρ) = (s.getConstraint? k).map (·.rename ρ)
  /-- The variables are the same but for their values, under the same handles. -/
  standing : ∀ v, t.standing? v = (s.standing? v).map (·.rename ρ)
  /-- The options are the same. -/
  options : t.options = s.options
  /-- Constraints come under renamed handles. -/
  constraintHandles : s.constraintStore.Trails ρ t.constraintStore
  /-- Variables come under the same handles. -/
  variableHandles : s.variableStore.Trails 1 t.variableStore
  /-- The one specification is tidy. -/
  left_tidy : s.Tidy
  /-- The other specification is tidy. -/
  right_tidy : t.Tidy

namespace Mirrors

variable {ρ : Equiv.Perm Slot} {s t : Spec α}

/-- Handles that are enough for the one are enough for the other. -/
theorem addressable (h : Mirrors ρ s t) (ht : t.Addressable) : s.Addressable :=
  ⟨h.variableHandles.size_le.trans ht.1, h.constraintHandles.size_le.trans ht.2⟩

/-- A live variable is live on the other side. -/
theorem getVariable?_eq_some (h : Mirrors ρ s t) {id : VariableId} {v : Variable α}
    (hv : s.getVariable? id = some v) :
    ∃ w, t.getVariable? id = some w ∧ w.standing = v.standing.rename ρ := by
  have hstanding := h.standing id
  unfold standing? at hstanding
  rw [hv, Option.map_some, Option.map_some] at hstanding
  exact Option.map_eq_some_iff.1 hstanding

/-- A stale handle of a variable is stale on the other side. -/
theorem getVariable?_eq_none (h : Mirrors ρ s t) {id : VariableId}
    (hv : s.getVariable? id = none) : t.getVariable? id = none := by
  have hstanding := h.standing id
  unfold standing? at hstanding
  rw [hv] at hstanding
  exact Option.map_eq_none_iff.1 hstanding

theorem getConstraint?_eq_some (h : Mirrors ρ s t) {k : ConstraintId} {c : Constraint α}
    (hc : s.getConstraint? k = some c) : t.getConstraint? (k.rename ρ) = some (c.rename ρ) := by
  rw [h.constraint, hc, Option.map_some]

theorem getConstraint?_eq_none (h : Mirrors ρ s t) {k : ConstraintId}
    (hc : s.getConstraint? k = none) : t.getConstraint? (k.rename ρ) = none := by
  rw [h.constraint, hc, Option.map_none]

/-! ### Single entries -/

/-- Both sides change a variable alike. -/
theorem modifyVariable (h : Mirrors ρ s t) (id : VariableId) {f g : Variable α → Variable α}
    (hfg : ∀ v w : Variable α, w.standing = v.standing.rename ρ →
      (g w).standing = (f v).standing.rename ρ) :
    Mirrors ρ (s.modifyVariable id f) (t.modifyVariable id g) where
  constraint := h.constraint
  standing := by
    intro v
    rw [standing?_modifyVariable, standing?_modifyVariable]
    split
    · cases hv : s.getVariable? id with
      | none =>
        rw [h.getVariable?_eq_none hv]
        rfl
      | some x =>
        obtain ⟨y, hy, hxy⟩ := h.getVariable?_eq_some hv
        rw [hy, Option.map_some, Option.map_some, Option.map_some, hfg x y hxy]
    · exact h.standing v
  options := h.options
  constraintHandles := h.constraintHandles
  variableHandles := h.variableHandles.congr (SlotStore.upcoming_modify h.left_tidy.1 _ _)
    (SlotStore.cells_size_modify _ _ _) (SlotStore.upcoming_modify h.right_tidy.1 _ _)
    (SlotStore.cells_size_modify _ _ _)
  left_tidy := (s.evolves_modifyVariable id f).tidy h.left_tidy
  right_tidy := (t.evolves_modifyVariable id g).tidy h.right_tidy

/-- Both sides change a constraint alike. -/
theorem modifyConstraint (h : Mirrors ρ s t) (k : ConstraintId)
    {f g : Constraint α → Constraint α} (hfg : ∀ c, g (c.rename ρ) = (f c).rename ρ) :
    Mirrors ρ (s.modifyConstraint k f) (t.modifyConstraint (k.rename ρ) g) where
  constraint := by
    intro j
    rw [getConstraint?_modifyConstraint, getConstraint?_modifyConstraint,
      if_congr ConstraintId.rename_inj rfl rfl, h.constraint k, h.constraint j]
    split
    · rw [Option.map_map, Option.map_map]
      refine congrArg (Option.map · _) (funext hfg)
    · rfl
  standing := h.standing
  options := h.options
  constraintHandles := h.constraintHandles.congr (SlotStore.upcoming_modify h.left_tidy.2 _ _)
    (SlotStore.cells_size_modify _ _ _) (SlotStore.upcoming_modify h.right_tidy.2 _ _)
    (SlotStore.cells_size_modify _ _ _)
  variableHandles := h.variableHandles
  left_tidy := (s.evolves_modifyConstraint k f).tidy h.left_tidy
  right_tidy := (t.evolves_modifyConstraint _ g).tidy h.right_tidy

/-- A variable without bound constraints is stored, under the same handle on both sides. -/
theorem insertVariable (h : Mirrors ρ s t) {v w : Variable α}
    (hvw : w.standing = v.standing.rename ρ)
    (hroom : (t.variableStore.insert w).2.Addressable) :
    (t.variableStore.insert w).1 = (s.variableStore.insert v).1 ∧
    Mirrors ρ { s with variableStore := (s.variableStore.insert v).2 }
      { t with variableStore := (t.variableStore.insert w).2 } := by
  obtain ⟨hhandle, hvariables⟩ := h.variableHandles.insert h.left_tidy.1 h.right_tidy.1 v w hroom
  have hhandle : (t.variableStore.insert w).1 = (s.variableStore.insert v).1 := hhandle
  have hroom' : (s.variableStore.insert v).2.Addressable := hvariables.size_le.trans hroom
  refine ⟨hhandle, h.constraint, fun id => ?_, h.options, h.constraintHandles, hvariables,
    (s.evolves_insertVariable v).tidy h.left_tidy, (t.evolves_insertVariable w).tidy h.right_tidy⟩
  show ((t.variableStore.insert w).2.get? id.slot).map _
    = (((s.variableStore.insert v).2.get? id.slot).map _).map _
  rw [SlotStore.insert_get? h.right_tidy.1 hroom, SlotStore.insert_get? h.left_tidy.1 hroom',
    hhandle, Function.update_apply, Function.update_apply]
  split
  · exact congrArg some hvw
  · exact h.standing id

/-- A variable is removed on both sides. -/
theorem eraseVariable (h : Mirrors ρ s t) {id : VariableId} {v : Variable α}
    (hv : s.getVariable? id = some v) :
    Mirrors ρ { s with variableStore := s.variableStore.erase id.slot }
      { t with variableStore := t.variableStore.erase id.slot } := by
  obtain ⟨w, hw, -⟩ := h.getVariable?_eq_some hv
  refine ⟨h.constraint, fun u => ?_, h.options, h.constraintHandles,
    h.variableHandles.erase h.left_tidy.1 h.right_tidy.1 hv hw,
    (s.evolves_eraseVariable id.slot).tidy h.left_tidy,
    (t.evolves_eraseVariable id.slot).tidy h.right_tidy⟩
  show ((t.variableStore.erase id.slot).get? u.slot).map _
    = (((s.variableStore.erase id.slot).get? u.slot).map _).map _
  rw [SlotStore.erase_get?, SlotStore.erase_get?, Function.update_apply, Function.update_apply]
  split
  · rfl
  · exact h.standing u

/-- A constraint is stored, under handles that belong together. -/
theorem insertConstraint (h : Mirrors ρ s t) (c : Constraint α)
    (hroom : (t.constraintStore.insert (c.rename ρ)).2.Addressable) :
    (t.constraintStore.insert (c.rename ρ)).1 = ρ (s.constraintStore.insert c).1 ∧
    Mirrors ρ { s with constraintStore := (s.constraintStore.insert c).2 }
      { t with constraintStore := (t.constraintStore.insert (c.rename ρ)).2 } := by
  obtain ⟨hhandle, hconstraints⟩ :=
    h.constraintHandles.insert h.left_tidy.2 h.right_tidy.2 c (c.rename ρ) hroom
  have hroom' : (s.constraintStore.insert c).2.Addressable := hconstraints.size_le.trans hroom
  refine ⟨hhandle, fun k => ?_, h.standing, h.options, hconstraints, h.variableHandles,
    ⟨h.left_tidy.1, h.left_tidy.2.insert c⟩, ⟨h.right_tidy.1, h.right_tidy.2.insert _⟩⟩
  show (t.constraintStore.insert (c.rename ρ)).2.get? (ρ k.slot)
    = ((s.constraintStore.insert c).2.get? k.slot).map _
  rw [SlotStore.insert_get? h.right_tidy.2 hroom, SlotStore.insert_get? h.left_tidy.2 hroom',
    hhandle, Function.update_apply, Function.update_apply,
    if_congr ρ.apply_eq_iff_eq rfl rfl]
  split
  · rfl
  · exact h.constraint k

/-- A constraint is removed on both sides. -/
theorem eraseConstraint (h : Mirrors ρ s t) {k : ConstraintId} {c : Constraint α}
    (hc : s.getConstraint? k = some c) :
    Mirrors ρ { s with constraintStore := s.constraintStore.erase k.slot }
      { t with constraintStore := t.constraintStore.erase (k.rename ρ).slot } := by
  refine ⟨fun j => ?_, h.standing, h.options,
    h.constraintHandles.erase h.left_tidy.2 h.right_tidy.2 hc (h.getConstraint?_eq_some hc),
    h.variableHandles,
    (s.evolves_eraseConstraint k.slot).tidy h.left_tidy,
    (t.evolves_eraseConstraint _).tidy h.right_tidy⟩
  show (t.constraintStore.erase (ρ k.slot)).get? (ρ j.slot)
    = ((s.constraintStore.erase k.slot).get? j.slot).map _
  rw [SlotStore.erase_get?, SlotStore.erase_get?, Function.update_apply, Function.update_apply,
    if_congr ρ.apply_eq_iff_eq rfl rfl]
  split
  · rfl
  · exact h.constraint j

/-! ### Changes that own nothing -/

theorem retain (h : Mirrors ρ s t) (left : List (Summand α)) :
    Mirrors ρ (s.retain left) (t.retain left) := by
  induction left generalizing s t with
  | nil => exact h
  | cons term left ih =>
    refine ih (h.modifyVariable term.var fun v w hvw => ?_)
    exact congrArg (Standing.retain 1) hvw

theorem release (h : Mirrors ρ s t) (left : List (Summand α)) :
    Mirrors ρ (s.release left) (t.release left) := by
  induction left generalizing s t with
  | nil => exact h
  | cons term left ih =>
    refine ih (h.modifyVariable term.var fun v w hvw => ?_)
    exact congrArg (Standing.release 1) hvw

theorem place (h : Mirrors ρ s t) (c : Constraint α)
    (ht : (t.place (c.rename ρ)).2.Addressable) :
    (t.place (c.rename ρ)).1 = (s.place c).1.rename ρ ∧
      Mirrors ρ (s.place c).2 (t.place (c.rename ρ)).2 := by
  obtain ⟨hhandle, hplaced⟩ := (h.retain c.left).insertConstraint c ht.2
  exact ⟨ConstraintId.slot_inj.1 hhandle, hplaced⟩

theorem withdraw (h : Mirrors ρ s t) (k : ConstraintId) :
    Mirrors ρ (s.withdraw k) (t.withdraw (k.rename ρ)) := by
  unfold Spec.withdraw
  cases hc : s.getConstraint? k with
  | none =>
    rw [h.getConstraint?_eq_none hc]
    exact h
  | some c =>
    rw [h.getConstraint?_eq_some hc]
    exact (h.eraseConstraint hc).release c.left

theorem foldl_withdraw (h : Mirrors ρ s t) (ks : List ConstraintId) :
    Mirrors ρ (ks.foldl Spec.withdraw s)
      ((ks.map (·.rename ρ)).foldl Spec.withdraw t) := by
  induction ks generalizing s t with
  | nil => exact h
  | cons k ks ih => exact ih (h.withdraw k)

theorem dropVariable (h : Mirrors ρ s t) (id : VariableId) :
    Mirrors ρ (s.dropVariable id) (t.dropVariable id) := by
  unfold Spec.dropVariable
  cases hv : s.getVariable? id with
  | none =>
    rw [h.getVariable?_eq_none hv]
    exact h
  | some v =>
    obtain ⟨w, hw, hvw⟩ := h.getVariable?_eq_some hv
    have hbounds : w.bounds = v.bounds.map (·.rename ρ) := by
      have hlower : w.lowerBound = v.lowerBound.map (·.rename ρ) :=
        congrArg (fun x => x.lowerBound) hvw
      have hupper : w.upperBound = v.upperBound.map (·.rename ρ) :=
        congrArg (fun x => x.upperBound) hvw
      unfold Variable.bounds
      rw [hlower, hupper, Option.toList_map, Option.toList_map, List.map_append]
    have hextent : (v.bounds.foldl Spec.withdraw s).registry.extent? id = some v.extent := by
      rw [registry_foldl_withdraw]
      exact registry_extent?_eq_some hv
    obtain ⟨u, hu, -⟩ := getVariable?_of_extent? hextent
    rw [hw]
    dsimp only
    rw [hbounds]
    exact (h.foldl_withdraw v.bounds).eraseVariable hu

/-! ### Ranges -/

variable [Scalar α]

theorem syncBound (h : Mirrors ρ s t) (id : VariableId) (existing : Option ConstraintId)
    (relation : Relation) (limit : α) (needed : Bool)
    (ht : (t.syncBound id (existing.map (·.rename ρ)) relation limit needed).2.Addressable) :
    (t.syncBound id (existing.map (·.rename ρ)) relation limit needed).1
        = (s.syncBound id existing relation limit needed).1.map (·.rename ρ) ∧
      Mirrors ρ (s.syncBound id existing relation limit needed).2
        (t.syncBound id (existing.map (·.rename ρ)) relation limit needed).2 := by
  cases existing with
  | none =>
    cases needed with
    | false => exact ⟨rfl, h⟩
    | true =>
      obtain ⟨hhandle, hplaced⟩ := h.place (.fresh [⟨1, id⟩] relation limit 0 0 (.bound id)) ht
      exact ⟨congrArg some hhandle, hplaced⟩
  | some bound =>
    cases needed with
    | false => exact ⟨rfl, h.withdraw bound⟩
    | true => exact ⟨rfl, h.modifyConstraint bound fun _ => rfl⟩

theorem applyRange (h : Mirrors ρ s t) (id : VariableId) (lower upper : α)
    (ht : (t.applyRange id lower upper).Addressable) :
    Mirrors ρ (s.applyRange id lower upper) (t.applyRange id lower upper) := by
  cases hv : s.getVariable? id with
  | none =>
    unfold Spec.applyRange
    rw [hv, h.getVariable?_eq_none hv]
    exact h
  | some v =>
    obtain ⟨w, hw, hvw⟩ := h.getVariable?_eq_some hv
    obtain ⟨s₁, s₂, s₃, a, b, hs⟩ := exists_rangeStages hv lower upper
    obtain ⟨t₁, t₂, t₃, a', b', ht'⟩ := exists_rangeStages hw lower upper
    have hends : Mirrors ρ s₁ t₁ := by
      rw [hs.ends, ht'.ends]
      refine h.modifyVariable id fun x y hxy => ?_
      exact congrArg (fun z : Standing α => { z with lower, upper }) hxy
    have hlower : w.lowerBound = v.lowerBound.map (·.rename ρ) :=
      congrArg (fun x => x.lowerBound) hvw
    have hupper : w.upperBound = v.upperBound.map (·.rename ρ) :=
      congrArg (fun x => x.upperBound) hvw
    have hroom₂ := ht'.room₂ ht
    have hroom₃ := ht'.room₃ ht
    have hlowerEnd := ht'.lowerEnd
    have hupperEnd := ht'.upperEnd
    rw [hlower] at hlowerEnd
    rw [hupper] at hupperEnd
    have hfirst := hends.syncBound id v.lowerBound .ge lower (Variable.defaultLower < lower)
      (by rwa [hlowerEnd])
    rw [hs.lowerEnd, hlowerEnd] at hfirst
    have hsecond := hfirst.2.syncBound id v.upperBound .le upper (upper < Variable.defaultUpper)
      (by rwa [hupperEnd])
    rw [hs.upperEnd, hupperEnd] at hsecond
    rw [hs.links, ht'.links]
    refine hsecond.2.modifyVariable id fun x y hxy => ?_
    rw [show a' = a.map (·.rename ρ) from hfirst.1, show b' = b.map (·.rename ρ) from hsecond.1]
    exact congrArg (fun z : Standing α => { z with
      lowerBound := a.map (ConstraintId.rename ρ)
      upperBound := b.map (ConstraintId.rename ρ) }) hxy

/-! ### Slacks -/

theorem attachSlack (h : Mirrors ρ s t) (id : ConstraintId) (c : Constraint α) (a : α)
    (ht : (t.attachSlack (id.rename ρ) (c.rename ρ) a).Addressable) :
    Mirrors ρ (s.attachSlack id c a) (t.attachSlack (id.rename ρ) (c.rename ρ) a) := by
  obtain ⟨s₁, s₂, s₃, s₄, slack, penalty, hs⟩ := exists_slackStages s id c a
  obtain ⟨t₁, t₂, t₃, t₄, slack', penalty', ht'⟩ :=
    exists_slackStages t (id.rename ρ) (c.rename ρ) a
  have hroom₁ := ht'.room₁ ht
  have hroom₂ := ht'.room₂ ht
  have hroom₄ := ht'.room₄ ht
  obtain ⟨hslack, hinserted⟩ := h.insertVariable (v := Variable.fresh none true)
    (w := Variable.fresh none true) rfl (by rw [ht'.inserted] at hroom₁; exact hroom₁.1)
  rw [← hs.inserted, ← ht'.inserted] at hinserted
  have hslack : slack' = slack := by
    rw [hs.handle, ht'.handle, hslack]
  subst hslack
  have hranged : Mirrors ρ s₂ t₂ := by
    rw [ht'.ranged] at hroom₂
    rw [hs.ranged, ht'.ranged]
    exact hinserted.applyRange _ _ _ hroom₂
  have hextended : Mirrors ρ s₃ t₃ := by
    rw [hs.extended, ht'.extended]
    refine Mirrors.retain (hranged.modifyConstraint id fun d => ?_) _
    rfl
  have hpenalized := hextended.place (penaltyOf id c slack')
    (by rw [show (penaltyOf id c slack').rename ρ = penaltyOf (id.rename ρ) (c.rename ρ) slack'
      from rfl, ht'.penalized]; exact hroom₄)
  rw [show (penaltyOf id c slack').rename ρ = penaltyOf (id.rename ρ) (c.rename ρ) slack' from rfl,
    hs.penalized, ht'.penalized] at hpenalized
  rw [hs.linked, ht'.linked, show penalty' = penalty.rename ρ from hpenalized.1]
  exact hpenalized.2.modifyConstraint id fun _ => rfl

theorem attach (h : Mirrors ρ s t) (id : ConstraintId)
    (ht : (t.attach (id.rename ρ)).Addressable) :
    Mirrors ρ (s.attach id) (t.attach (id.rename ρ)) := by
  obtain hsettled | ⟨c, a, hc, hrigid, hsoft, ha⟩ := s.settled_or_pending id
  · rw [attach_of_settled hsettled, attach_of_settled fun d hd => ?_]
    · exact h
    · rw [h.constraint] at hd
      obtain ⟨c, hc, rfl⟩ := Option.map_eq_some_iff.1 hd
      have hkept : (c.rename ρ).elastic.isSome = c.elastic.isSome := Option.isSome_map
      rw [hkept]
      exact hsettled c hc
  · have hrigid' : (c.rename ρ).elastic = none := by
      show c.elastic.map _ = none
      rw [hrigid, Option.map_none]
    rw [attach_of_softInequality (h.getConstraint?_eq_some hc) hrigid' hsoft ha] at ht ⊢
    rw [attach_of_softInequality hc hrigid hsoft ha]
    exact h.attachSlack id c a ht

omit [Scalar α] in
theorem detach (h : Mirrors ρ s t) (id : ConstraintId) :
    Mirrors ρ (s.detach id) (t.detach (id.rename ρ)) := by
  obtain hrigid | ⟨c, e, hc, he⟩ := s.rigid_or_elastic id
  · rw [detach_of_rigid hrigid, detach_of_rigid fun d hd => ?_]
    · exact h
    · have hd : t.getConstraint? (id.rename ρ) = some d := hd
      rw [h.constraint] at hd
      obtain ⟨c, hc, rfl⟩ := Option.map_eq_some_iff.1 hd
      show c.elastic.map _ = none
      rw [hrigid c hc, Option.map_none]
  · have he' : (c.rename ρ).elastic = some (e.rename ρ) := by
      show c.elastic.map _ = _
      rw [he]
      rfl
    rw [detach_eq hc he, detach_eq (h.getConstraint?_eq_some hc) he']
    refine Mirrors.dropVariable (Mirrors.withdraw (Mirrors.release
      (h.modifyConstraint id fun d => ?_) _) e.penalty) e.slack
    rfl

/-! ### Constraints of any kind -/

theorem register (h : Mirrors ρ s t) (c : Constraint α)
    (ht : (t.register (c.rename ρ)).2.Addressable) :
    (t.register (c.rename ρ)).1 = (s.register c).1.rename ρ ∧
      Mirrors ρ (s.register c).2 (t.register (c.rename ρ)).2 := by
  obtain ⟨hhandle, hplaced⟩ := h.place c ((evolves_attach _ _).addressable ht)
  refine ⟨hhandle, ?_⟩
  have ht : ((t.place (c.rename ρ)).2.attach (t.place (c.rename ρ)).1).Addressable := ht
  show Mirrors ρ ((s.place c).2.attach (s.place c).1)
    ((t.place (c.rename ρ)).2.attach (t.place (c.rename ρ)).1)
  rw [hhandle] at ht ⊢
  exact hplaced.attach _ ht

omit [Scalar α] in
theorem drop (h : Mirrors ρ s t) (id : ConstraintId) :
    Mirrors ρ (s.drop id) (t.drop (id.rename ρ)) :=
  (h.detach id).withdraw id

theorem mutate (h : Mirrors ρ s t) (id : ConstraintId) {f : Constraint α → Constraint α}
    (hf : ∀ c, f (c.rename ρ) = (f c).rename ρ) (ht : (t.mutate (id.rename ρ) f).Addressable) :
    Mirrors ρ (s.mutate id f) (t.mutate (id.rename ρ) f) := by
  have hdetached := h.detach id
  cases hc : (s.detach id).getConstraint? id with
  | none =>
    unfold Spec.mutate
    dsimp only
    rw [hc, hdetached.getConstraint?_eq_none hc]
    exact hdetached
  | some c =>
    have hc' := hdetached.getConstraint?_eq_some hc
    rw [mutate_eq hc' f] at ht ⊢
    rw [mutate_eq hc f]
    rw [hf, show ((f c).rename ρ).left = (f c).left from rfl,
      show (c.rename ρ).left = c.left from rfl] at ht ⊢
    exact (((hdetached.modifyConstraint id hf).release _).retain _).attach id ht

end Mirrors

end Spec

end ElasticLayout
