import ElasticLayout.Proofs.Step

/-!
# Registries

What the ownership of internal constraints depends on: the ranges of the variables with their bound
constraints, and the constraints.  A registry has both as partial functions on handles.  Values,
names and reference counts of variables are not part of it.

* `Extent`, `Variable.extent` -- range, bound constraints and kind of a variable;
* `Registry`, `Spec.registry` -- the extents and the constraints of a specification;
* `Registry.putExtent`, `Registry.putConstraint`, `Registry.erase` -- updates; putting `none`
  removes;
* `Spec.registry_retain` ... `Spec.registry_dropVariable` -- the changes that give no slack, as
  updates.
-/

namespace ElasticLayout

variable {α : Type}

/-! ### Views -/

theorem VariableId.slot_inj {a b : VariableId} : a.slot = b.slot ↔ a = b :=
  ⟨fun h => congrArg VariableId.mk h, fun h => congrArg VariableId.slot h⟩

theorem ConstraintId.slot_inj {a b : ConstraintId} : a.slot = b.slot ↔ a = b :=
  ⟨fun h => congrArg ConstraintId.mk h, fun h => congrArg ConstraintId.slot h⟩

/-- What the bound constraints and the owner of a variable depend on. -/
structure Extent (α : Type) where
  /-- Lower end of the range. -/
  lower : α
  /-- Upper end of the range. -/
  upper : α
  /-- The constraint that enforces the lower end. -/
  lowerBound : Option ConstraintId
  /-- The constraint that enforces the upper end. -/
  upperBound : Option ConstraintId
  /-- The variable belongs to an elastic constraint. -/
  isSlack : Bool

/-- The extent of a variable. -/
def Variable.extent (v : Variable α) : Extent α :=
  ⟨v.lower, v.upper, v.lowerBound, v.upperBound, v.isSlack⟩

/-- The bound constraints of an extent. -/
def Extent.bounds (x : Extent α) : List ConstraintId := x.lowerBound.toList ++ x.upperBound.toList

@[simp, grind =] theorem Extent.mem_bounds {x : Extent α} {k : ConstraintId} :
    k ∈ x.bounds ↔ x.lowerBound = some k ∨ x.upperBound = some k := by
  simp [Extent.bounds]

/-- Extents and constraints by handle. -/
@[ext] structure Registry (α : Type) where
  /-- The extent of a live variable. -/
  extent? : VariableId → Option (Extent α)
  /-- A live constraint. -/
  constraint? : ConstraintId → Option (Constraint α)

namespace Registry

/-- Put an extent in the place of one; `none` removes it. -/
def putExtent (r : Registry α) (id : VariableId) (x : Option (Extent α)) : Registry α :=
  { r with extent? := Function.update r.extent? id x }

/-- Put a constraint in the place of one; `none` removes it. -/
def putConstraint (r : Registry α) (id : ConstraintId) (c : Option (Constraint α)) :
    Registry α :=
  { r with constraint? := Function.update r.constraint? id c }

/-- Remove constraints. -/
def erase (r : Registry α) (ks : List ConstraintId) : Registry α :=
  { r with constraint? := fun k => if k ∈ ks then none else r.constraint? k }

@[simp, grind =] theorem extent?_erase (r : Registry α) (ks : List ConstraintId) (v : VariableId) :
    (r.erase ks).extent? v = r.extent? v := rfl

@[simp, grind =] theorem constraint?_erase (r : Registry α) (ks : List ConstraintId)
    (k : ConstraintId) :
    (r.erase ks).constraint? k = if k ∈ ks then none else r.constraint? k := rfl

@[simp, grind =] theorem extent?_putExtent (r : Registry α) (id v : VariableId)
    (x : Option (Extent α)) :
    (r.putExtent id x).extent? v = if v = id then x else r.extent? v :=
  Function.update_apply _ _ _ _

@[simp, grind =] theorem constraint?_putExtent (r : Registry α) (id : VariableId)
    (x : Option (Extent α)) (k : ConstraintId) :
    (r.putExtent id x).constraint? k = r.constraint? k := rfl

@[simp, grind =] theorem extent?_putConstraint (r : Registry α) (id : ConstraintId)
    (c : Option (Constraint α)) (v : VariableId) :
    (r.putConstraint id c).extent? v = r.extent? v := rfl

@[simp, grind =] theorem constraint?_putConstraint (r : Registry α) (id k : ConstraintId)
    (c : Option (Constraint α)) :
    (r.putConstraint id c).constraint? k = if k = id then c else r.constraint? k :=
  Function.update_apply _ _ _ _

theorem putExtent_self {r : Registry α} {id : VariableId} {x : Option (Extent α)}
    (h : r.extent? id = x) : r.putExtent id x = r :=
  Registry.ext (by rw [← h]; exact Function.update_eq_self id r.extent?) rfl

theorem putConstraint_self {r : Registry α} {id : ConstraintId} {c : Option (Constraint α)}
    (h : r.constraint? id = c) : r.putConstraint id c = r :=
  Registry.ext rfl (by rw [← h]; exact Function.update_eq_self id r.constraint?)

/-- What is written at a free handle and taken away again leaves nothing behind. -/
theorem putConstraint_none {r : Registry α} {id : ConstraintId} {c : Option (Constraint α)}
    (h : r.constraint? id = none) : (r.putConstraint id c).putConstraint id none = r := by
  have htwice : (r.putConstraint id c).putConstraint id none = r.putConstraint id none :=
    Registry.ext rfl (Function.update_idem ..)
  rw [htwice, putConstraint_self h]

end Registry

namespace Spec

/-- The registry of a specification. -/
def registry (s : Spec α) : Registry α where
  extent? id := (s.getVariable? id).map Variable.extent
  constraint? := s.getConstraint?

theorem registry_constraint? (s : Spec α) (k : ConstraintId) :
    s.registry.constraint? k = s.getConstraint? k := rfl

theorem registry_extent?_eq_some {s : Spec α} {id : VariableId} {v : Variable α}
    (h : s.getVariable? id = some v) : s.registry.extent? id = some v.extent := by
  show (s.getVariable? id).map Variable.extent = _
  rw [h]
  rfl

theorem getVariable?_of_extent? {s : Spec α} {id : VariableId} {x : Extent α}
    (h : s.registry.extent? id = some x) : ∃ v, s.getVariable? id = some v ∧ v.extent = x :=
  Option.map_eq_some_iff.1 h

theorem isUserVariable_iff_extent? (s : Spec α) (id : VariableId) :
    s.isUserVariable id = true ↔ ∃ x, s.registry.extent? id = some x ∧ x.isSlack = false := by
  rw [isUserVariable_iff]
  constructor
  · rintro ⟨v, hv, hslack⟩
    exact ⟨v.extent, registry_extent?_eq_some hv, hslack⟩
  · rintro ⟨x, hx, hslack⟩
    obtain ⟨v, hv, rfl⟩ := getVariable?_of_extent? hx
    exact ⟨v, hv, hslack⟩

theorem mem_constraintList {s : Spec α} (h : s.Addressable) {k : ConstraintId}
    {c : Constraint α} : (k, c) ∈ s.constraintList ↔ s.registry.constraint? k = some c := by
  unfold constraintList
  rw [List.mem_map]
  constructor
  · rintro ⟨⟨slot, d⟩, hmem, hpair⟩
    obtain ⟨rfl, rfl⟩ := Prod.mk.inj hpair
    exact (SlotStore.mem_toList h.2).1 hmem
  · intro hget
    exact ⟨(k.slot, c), (SlotStore.mem_toList h.2).2 hget, rfl⟩

theorem mem_variableList {s : Spec α} (h : s.Addressable) {id : VariableId} {v : Variable α} :
    (id, v) ∈ s.variableList ↔ s.getVariable? id = some v := by
  unfold variableList
  rw [List.mem_map]
  constructor
  · rintro ⟨⟨slot, w⟩, hmem, hpair⟩
    obtain ⟨rfl, rfl⟩ := Prod.mk.inj hpair
    exact (SlotStore.mem_toList h.1).1 hmem
  · intro hget
    exact ⟨(id.slot, v), (SlotStore.mem_toList h.1).2 hget, rfl⟩

theorem constraintList_nodup {s : Spec α} (h : s.Addressable) :
    (s.constraintList.map (·.1)).Nodup := by
  unfold constraintList
  rw [List.map_map, List.Nodup, List.pairwise_map]
  refine (SlotStore.toList_pairwise h.2).imp fun {a b} hlt heq => ?_
  have hslot : a.1 = b.1 := congrArg ConstraintId.slot heq
  rw [hslot] at hlt
  exact UInt32.lt_irrefl _ hlt

/-! ### Single entries -/

theorem getVariable?_modifyVariable (s : Spec α) (id v : VariableId)
    (f : Variable α → Variable α) :
    (s.modifyVariable id f).getVariable? v
      = if v = id then (s.getVariable? id).map f else s.getVariable? v := by
  show (s.variableStore.modify id.slot f).get? v.slot = _
  rw [SlotStore.modify_get?, Function.update_apply]
  exact if_congr VariableId.slot_inj rfl rfl

theorem getConstraint?_modifyConstraint (s : Spec α) (id k : ConstraintId)
    (f : Constraint α → Constraint α) :
    (s.modifyConstraint id f).getConstraint? k
      = if k = id then (s.getConstraint? id).map f else s.getConstraint? k := by
  show (s.constraintStore.modify id.slot f).get? k.slot = _
  rw [SlotStore.modify_get?, Function.update_apply]
  exact if_congr ConstraintId.slot_inj rfl rfl

theorem registry_modifyVariable (s : Spec α) (id : VariableId) (f : Variable α → Variable α) :
    (s.modifyVariable id f).registry
      = s.registry.putExtent id ((s.getVariable? id).map fun v => (f v).extent) := by
  refine Registry.ext (funext fun v => ?_) rfl
  show ((s.modifyVariable id f).getVariable? v).map _ = _
  rw [getVariable?_modifyVariable, Registry.extent?_putExtent]
  split
  · rw [Option.map_map]
    rfl
  · rfl

/-- A change that keeps the extent of a variable is not seen. -/
theorem registry_modifyVariable_of_extent (s : Spec α) (id : VariableId)
    {f : Variable α → Variable α} (h : ∀ v, (f v).extent = v.extent) :
    (s.modifyVariable id f).registry = s.registry := by
  rw [registry_modifyVariable]
  refine Registry.putExtent_self ?_
  simp only [h]
  rfl

theorem registry_modifyConstraint (s : Spec α) (id : ConstraintId)
    (f : Constraint α → Constraint α) :
    (s.modifyConstraint id f).registry
      = s.registry.putConstraint id ((s.registry.constraint? id).map f) := by
  refine Registry.ext rfl (funext fun k => ?_)
  rw [Registry.constraint?_putConstraint]
  exact getConstraint?_modifyConstraint s id k f

theorem registry_insertVariable {s : Spec α} (h : s.Tidy) {v : Variable α}
    (hroom : (s.variableStore.insert v).2.Addressable) :
    s.registry.extent? ⟨(s.variableStore.insert v).1⟩ = none ∧
      ({ s with variableStore := (s.variableStore.insert v).2 } : Spec α).registry
        = s.registry.putExtent ⟨(s.variableStore.insert v).1⟩ (some v.extent) := by
  constructor
  · show (s.variableStore.get? _).map _ = none
    rw [SlotStore.get?_insert_fresh h.1 hroom]
    rfl
  · refine Registry.ext (funext fun id => ?_) rfl
    show ((s.variableStore.insert v).2.get? id.slot).map _ = _
    rw [SlotStore.insert_get? h.1 hroom, Function.update_apply, Registry.extent?_putExtent]
    rw [apply_ite (Option.map Variable.extent)]
    exact if_congr (VariableId.slot_inj (b := ⟨(s.variableStore.insert v).1⟩)) rfl rfl

theorem registry_eraseVariable (s : Spec α) (id : VariableId) :
    ({ s with variableStore := s.variableStore.erase id.slot } : Spec α).registry
      = s.registry.putExtent id none := by
  refine Registry.ext (funext fun v => ?_) rfl
  show ((s.variableStore.erase id.slot).get? v.slot).map _ = _
  rw [SlotStore.erase_get?, Function.update_apply, Registry.extent?_putExtent]
  rw [apply_ite (Option.map Variable.extent)]
  exact if_congr VariableId.slot_inj rfl rfl

theorem registry_eraseConstraint (s : Spec α) (id : ConstraintId) :
    ({ s with constraintStore := s.constraintStore.erase id.slot } : Spec α).registry
      = s.registry.putConstraint id none := by
  refine Registry.ext rfl (funext fun k => ?_)
  show (s.constraintStore.erase id.slot).get? k.slot = _
  rw [SlotStore.erase_get?, Function.update_apply, Registry.constraint?_putConstraint]
  exact if_congr ConstraintId.slot_inj rfl rfl

/-! ### Changes that own nothing -/

/-- What no step of a fold changes, the fold does not change. -/
theorem foldl_keeps {β γ : Type} (view : Spec α → γ) {f : Spec α → β → Spec α}
    (h : ∀ (s : Spec α) (b : β), view (f s b) = view s) (bs : List β) (s : Spec α) :
    view (bs.foldl f s) = view s := by
  induction bs generalizing s with
  | nil => rfl
  | cons b bs ih => exact (ih (f s b)).trans (h s b)

theorem registry_retain (s : Spec α) (left : List (Summand α)) :
    (s.retain left).registry = s.registry := by
  unfold retain
  refine foldl_keeps registry (fun s term => ?_) left s
  exact s.registry_modifyVariable_of_extent term.var fun _ => rfl

theorem registry_release (s : Spec α) (left : List (Summand α)) :
    (s.release left).registry = s.registry := by
  unfold release
  refine foldl_keeps registry (fun s term => ?_) left s
  exact s.registry_modifyVariable_of_extent term.var fun _ => rfl

theorem registry_assign (s : Spec α) (values : List (VariableId × α)) :
    (s.assign values).registry = s.registry := by
  unfold assign
  refine foldl_keeps registry (fun s entry => ?_) values s
  exact s.registry_modifyVariable_of_extent entry.1 fun _ => rfl

theorem registry_place {s : Spec α} (h : s.Tidy) {c : Constraint α}
    (hroom : (s.place c).2.Addressable) :
    s.registry.constraint? (s.place c).1 = none ∧
      (s.place c).2.registry = s.registry.putConstraint (s.place c).1 (some c) := by
  have htidy : (s.retain c.left).Tidy := (s.evolves_retain c.left).tidy h
  have hfresh := SlotStore.get?_insert_fresh htidy.2 (show SlotStore.Addressable _ from hroom.2)
  have hget := SlotStore.insert_get? htidy.2 (show SlotStore.Addressable _ from hroom.2)
  have hregistry := s.registry_retain c.left
  constructor
  · rw [← hregistry]
    exact hfresh
  · rw [← hregistry]
    refine Registry.ext rfl (funext fun k => ?_)
    show ((s.retain c.left).constraintStore.insert c).2.get? k.slot = _
    rw [hget, Function.update_apply, Registry.constraint?_putConstraint]
    exact if_congr (ConstraintId.slot_inj (b := (s.place c).1)) rfl rfl

theorem withdraw_of_stale {s : Spec α} {id : ConstraintId} (h : s.getConstraint? id = none) :
    s.withdraw id = s := by
  unfold withdraw
  rw [h]

theorem withdraw_of_live {s : Spec α} {id : ConstraintId} {c : Constraint α}
    (h : s.getConstraint? id = some c) : s.withdraw id =
      ({ s with constraintStore := s.constraintStore.erase id.slot } : Spec α).release c.left := by
  unfold withdraw
  rw [h]

/-- What shows neither constraints nor references is the same when a constraint is withdrawn. -/
theorem withdraw_keeps {γ : Type} (view : Spec α → γ)
    (hstore : ∀ (s : Spec α) (store : SlotStore (Constraint α)),
      view { s with constraintStore := store } = view s)
    (hrelease : ∀ (s : Spec α) (left : List (Summand α)), view (s.release left) = view s)
    (s : Spec α) (id : ConstraintId) : view (s.withdraw id) = view s := by
  cases hc : s.getConstraint? id with
  | none => rw [withdraw_of_stale hc]
  | some c =>
    rw [withdraw_of_live hc]
    exact (hrelease _ c.left).trans (hstore s _)

theorem registry_withdraw (s : Spec α) (id : ConstraintId) :
    (s.withdraw id).registry = s.registry.putConstraint id none := by
  cases hc : s.getConstraint? id with
  | none =>
    rw [withdraw_of_stale hc]
    exact (Registry.putConstraint_self hc).symm
  | some c => rw [withdraw_of_live hc, registry_release, registry_eraseConstraint]

/-- Removing constraints that own nothing, one after the other. -/
theorem registry_foldl_withdraw (ks : List ConstraintId) (s : Spec α) :
    (ks.foldl withdraw s).registry = s.registry.erase ks := by
  induction ks generalizing s with
  | nil => exact Registry.ext rfl (by funext k; simp)
  | cons k ks ih =>
    rw [List.foldl_cons, ih, registry_withdraw]
    refine Registry.ext rfl (funext fun j => ?_)
    grind

theorem registry_dropVariable {s : Spec α} {id : VariableId} {x : Extent α}
    (h : s.registry.extent? id = some x) :
    (s.dropVariable id).registry = (s.registry.erase x.bounds).putExtent id none := by
  obtain ⟨v, hv, rfl⟩ := getVariable?_of_extent? h
  unfold dropVariable
  rw [hv]
  show ({ v.bounds.foldl withdraw s with variableStore := _ } : Spec α).registry = _
  rw [registry_eraseVariable, registry_foldl_withdraw]
  rfl

end Spec

end ElasticLayout
