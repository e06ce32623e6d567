import ElasticLayout.Proofs.Renaming

/-!
# Solving on both sides

Specifications that mirror each other still do so after both were solved, or asked for a size.  The
constraints that a query suspends may come in another order on the other side; what is suspended is
the same.

* `Spec.KeepsHandles` -- a change after which the same handles are next;
* `Spec.Mirrors.congr` -- changes of one's own on each side that keep what is mirrored;
* `Spec.Mirrors.foldl_setSuspended` -- suspending and resuming;
* `Spec.Mirrors.solve`, `Spec.Mirrors.pinned`, `Spec.Mirrors.sizeQuery` -- solves and queries.
-/

namespace ElasticLayout.Spec

variable {α : Type}

/-! ### Changes that leave the handles alone -/

/-- The same handles are next, of variables and of constraints. -/
structure KeepsHandles (s t : Spec α) : Prop where
  tidy : t.Tidy
  constraints : t.constraintStore.upcoming = s.constraintStore.upcoming
  constraints_size : t.constraintStore.cells.size = s.constraintStore.cells.size
  variables_upcoming : t.variableStore.upcoming = s.variableStore.upcoming
  variables_size : t.variableStore.cells.size = s.variableStore.cells.size

theorem KeepsHandles.refl {s : Spec α} (hs : s.Tidy) : s.KeepsHandles s :=
  ⟨hs, rfl, rfl, rfl, rfl⟩

theorem KeepsHandles.trans {s t u : Spec α} (h : s.KeepsHandles t) (h' : t.KeepsHandles u) :
    s.KeepsHandles u :=
  ⟨h'.tidy, h'.constraints.trans h.constraints, h'.constraints_size.trans h.constraints_size,
    h'.variables_upcoming.trans h.variables_upcoming, h'.variables_size.trans h.variables_size⟩

theorem KeepsHandles.foldl {β : Type} {f : Spec α → β → Spec α}
    (h : ∀ (s : Spec α) (b : β), s.Tidy → s.KeepsHandles (f s b)) (bs : List β) {s : Spec α}
    (hs : s.Tidy) : s.KeepsHandles (bs.foldl f s) := by
  induction bs generalizing s with
  | nil => exact .refl hs
  | cons b bs ih => exact (h s b hs).trans (ih (h s b hs).tidy)

theorem keepsHandles_modifyVariable (s : Spec α) (id : VariableId) (f : Variable α → Variable α)
    (hs : s.Tidy) : s.KeepsHandles (s.modifyVariable id f) :=
  ⟨(s.evolves_modifyVariable id f).tidy hs, rfl, rfl, SlotStore.upcoming_modify hs.1 _ _,
    SlotStore.cells_size_modify _ _ _⟩

theorem keepsHandles_modifyConstraint (s : Spec α) (k : ConstraintId)
    (f : Constraint α → Constraint α) (hs : s.Tidy) : s.KeepsHandles (s.modifyConstraint k f) :=
  ⟨(s.evolves_modifyConstraint k f).tidy hs, SlotStore.upcoming_modify hs.2 _ _,
    SlotStore.cells_size_modify _ _ _, rfl, rfl⟩

theorem keepsHandles_assign {s : Spec α} (hs : s.Tidy) (values : List (VariableId × α)) :
    s.KeepsHandles (s.assign values) :=
  .foldl (fun s _ => s.keepsHandles_modifyVariable _ _) values hs

theorem keepsHandles_setSuspended (suspended : Bool) (s : Spec α) (k : ConstraintId)
    (hs : s.Tidy) : s.KeepsHandles (s.setSuspended suspended k) := by
  rw [setSuspended_eq_foldl]
  exact .foldl (fun s _ => s.keepsHandles_modifyConstraint _ _) _ hs

theorem keepsHandles_solve [Scalar α] {s : Spec α} (hs : s.Tidy) : s.KeepsHandles s.solve := by
  have hresult : ∀ (t : Spec α) (code : ResultCode), t.Tidy →
      t.KeepsHandles { t with result := code } := fun t code ht => ⟨ht, rfl, rfl, rfl, rfl⟩
  unfold solve
  split
  · rename_i x _
    have hassign := keepsHandles_assign hs (s.columns.zip x.toList)
    exact hassign.trans (hresult _ _ hassign.tidy)
  · exact hresult s _ hs

/-- A query suspends the soft constraints of the caller that take part. -/
theorem mem_suspendable [Scalar α] {s : Spec α} (hs : s.Addressable) {k : ConstraintId} :
    k ∈ s.suspendable ↔
      ∃ c, s.getConstraint? k = some c ∧ (c.role == .user && c.isSoft && !c.isSuspended) := by
  unfold suspendable
  simp only [List.mem_map, List.mem_filter, Prod.exists, exists_and_right, exists_eq_right,
    mem_constraintList hs]
  rfl

namespace Mirrors

variable {ρ : Equiv.Perm Slot} {s s' t t' : Spec α}

/-- Each side is changed in a way of its own, but what is mirrored stays so. -/
theorem congr (h : Mirrors ρ s t) (hs : s.KeepsHandles s') (ht : t.KeepsHandles t')
    (hconstraint : ∀ k, t'.getConstraint? (k.rename ρ) = (s'.getConstraint? k).map (·.rename ρ))
    (hs' : s'.standing? = s.standing?) (ht' : t'.standing? = t.standing?)
    (hoptions : s'.options = s.options) (hoptions' : t'.options = t.options) :
    Mirrors ρ s' t' where
  constraint := hconstraint
  standing v := by
    rw [hs', ht']
    exact h.standing v
  options := by rw [hoptions, hoptions', h.options]
  constraintHandles := h.constraintHandles.congr hs.constraints hs.constraints_size
    ht.constraints ht.constraints_size
  variableHandles := h.variableHandles.congr hs.variables_upcoming hs.variables_size
    ht.variables_upcoming ht.variables_size
  left_tidy := hs.tidy
  right_tidy := ht.tidy

/-! ### Suspending -/

/-- What is suspended together on the one side is suspended together on the other. -/
theorem family (h : Mirrors ρ s t) (k : ConstraintId) :
    t.registry.family (k.rename ρ) = (s.registry.family k).map (·.rename ρ) := by
  have hextent : ∀ v, ((t.registry.extent? v).map Extent.bounds).getD []
      = (((s.registry.extent? v).map Extent.bounds).getD []).map (·.rename ρ) := by
    intro v
    cases hv : s.getVariable? v with
    | none =>
      rw [show s.registry.extent? v = none from congrArg (Option.map _) hv,
        show t.registry.extent? v = none from
          congrArg (Option.map _) (h.getVariable?_eq_none hv)]
      rfl
    | some x =>
      obtain ⟨y, hy, hxy⟩ := h.getVariable?_eq_some hv
      have hextent : y.extent = (x.standing.rename ρ).toExtent :=
        congrArg Standing.toExtent hxy
      rw [registry_extent?_eq_some hv, registry_extent?_eq_some hy, hextent]
      show Option.toList _ ++ Option.toList _ = List.map _ (Option.toList _ ++ Option.toList _)
      rw [List.map_append, ← Option.toList_map, ← Option.toList_map]
      rfl
  unfold Registry.family
  rw [show t.registry.constraint? (k.rename ρ) = (s.registry.constraint? k).map (·.rename ρ) from
    h.constraint k]
  cases s.registry.constraint? k with
  | none => rfl
  | some c =>
    cases he : c.elastic with
    | none => simp [Constraint.rename, he]
    | some e =>
      simp only [Option.map_some, Constraint.rename, he, List.map_cons, ← hextent]
      rfl

/-- **Both sides suspend or resume the same constraints**, in whatever order. -/
theorem foldl_setSuspended (h : Mirrors ρ s t) (suspended : Bool) {ks js : List ConstraintId}
    (hmem : ∀ k : ConstraintId, k.rename ρ ∈ js ↔ k ∈ ks) :
    Mirrors ρ (ks.foldl (setSuspended suspended) s) (js.foldl (setSuspended suspended) t) := by
  refine h.congr (.foldl (keepsHandles_setSuspended suspended) ks h.left_tidy)
    (.foldl (keepsHandles_setSuspended suspended) js h.right_tidy) (fun k => ?_)
    (standing?_congr (variableStore_foldl_setSuspended suspended ks s))
    (standing?_congr (variableStore_foldl_setSuspended suspended js t))
    (foldl_keeps Spec.options (options_setSuspended suspended) ks s)
    (foldl_keeps Spec.options (options_setSuspended suspended) js t)
  have hfamilies : k.rename ρ ∈ js.flatMap t.registry.family
      ↔ k ∈ ks.flatMap s.registry.family := by
    simp only [List.mem_flatMap]
    constructor
    · rintro ⟨j, hj, hk⟩
      obtain ⟨i, rfl⟩ := j.exists_rename ρ
      rw [h.family, List.mem_map] at hk
      obtain ⟨k', hk', heq⟩ := hk
      exact ⟨i, (hmem i).1 hj, ConstraintId.rename_inj.1 heq ▸ hk'⟩
    · rintro ⟨i, hi, hk⟩
      refine ⟨i.rename ρ, (hmem i).2 hi, ?_⟩
      rw [h.family]
      exact List.mem_map_of_mem hk
  show (js.foldl (setSuspended suspended) t).registry.constraint? _
    = ((ks.foldl (setSuspended suspended) s).registry.constraint? k).map _
  rw [registry_foldl_setSuspended, registry_foldl_setSuspended, Registry.constraint?_mark,
    Registry.constraint?_mark, if_congr hfamilies rfl rfl,
    show t.registry.constraint? (k.rename ρ) = (s.registry.constraint? k).map (·.rename ρ) from
      h.constraint k]
  split
  · rw [Option.map_map, Option.map_map]
    rfl
  · rfl

variable [Scalar α]

theorem mem_suspendable (h : Mirrors ρ s t) (ht : t.Addressable) (k : ConstraintId) :
    k.rename ρ ∈ t.suspendable ↔ k ∈ s.suspendable := by
  have hkept : ∀ c : Constraint α, ((c.rename ρ).role == .user) = (c.role == .user) := fun c =>
    Bool.eq_iff_iff.2 (by simp [Constraint.rename])
  rw [Spec.mem_suspendable ht, Spec.mem_suspendable (h.addressable ht), h.constraint]
  constructor
  · rintro ⟨_, hmap, hsoft⟩
    obtain ⟨c, hc, rfl⟩ := Option.map_eq_some_iff.1 hmap
    rw [hkept] at hsoft
    exact ⟨c, hc, hsoft⟩
  · rintro ⟨c, hc, hsoft⟩
    refine ⟨c.rename ρ, by rw [hc, Option.map_some], ?_⟩
    rw [hkept]
    exact hsoft

end Mirrors

/-! ### Solving -/

variable [Scalar α]

theorem evolves_pin (s : Spec α) (id : VariableId) (target : α) :
    s.Evolves (s.pin id target).2 1 4 :=
  s.evolves_register (s.pinConstraint id target)

/-- The pins come after the suspension, that of the height first. -/
theorem pinned_eq {s s₀ : Spec α} (h : s₀ = s.suspendable.foldl (setSuspended true) s)
    (width height : VariableId) (target : α) : s.pinned width height target =
      (((s₀.pin height target).1, ((s₀.pin height target).2.pin width target).1),
        ((s₀.pin height target).2.pin width target).2) := by
  unfold pinned
  rw [← h]

theorem getConstraint?_solve (s : Spec α) : s.solve.getConstraint? = s.getConstraint? :=
  congrArg Registry.constraint? s.registry_solve

namespace Mirrors

variable {ρ : Equiv.Perm Slot} {s s' t t' : Spec α}

theorem solve (h : Mirrors ρ s t) : Mirrors ρ s.solve t.solve := by
  refine h.congr (keepsHandles_solve h.left_tidy) (keepsHandles_solve h.right_tidy) (fun k => ?_)
    s.standing?_solve t.standing?_solve s.options_solve t.options_solve
  rw [getConstraint?_solve, getConstraint?_solve]
  exact h.constraint k

theorem pin (h : Mirrors ρ s t) (id : VariableId) (target : α)
    (ht : (t.pin id target).2.Addressable) :
    (t.pin id target).1 = (s.pin id target).1.rename ρ ∧
      Mirrors ρ (s.pin id target).2 (t.pin id target).2 := by
  have hpin : (s.pinConstraint id target).rename ρ = t.pinConstraint id target := by
    unfold pinConstraint
    rw [h.options]
    rfl
  rw [← register_pinConstraint, ← hpin] at ht
  rw [← register_pinConstraint, ← register_pinConstraint, ← hpin]
  exact h.register _ ht

/-- **What a query solves is mirrored**, and so are its pins. -/
theorem pinned (h : Mirrors ρ s t) (width height : VariableId) (target : α)
    (ht : (t.pinned width height target).2.Addressable) :
    (t.pinned width height target).1.1 = (s.pinned width height target).1.1.rename ρ ∧
    (t.pinned width height target).1.2 = (s.pinned width height target).1.2.rename ρ ∧
      Mirrors ρ (s.pinned width height target).2 (t.pinned width height target).2 := by
  have hroom : t.Addressable := (t.evolves_pinned width height target).addressable ht
  have hsuspended := h.foldl_setSuspended true (h.mem_suspendable hroom)
  rw [pinned_eq rfl] at ht
  rw [pinned_eq rfl, pinned_eq rfl]
  dsimp only at ht ⊢
  obtain ⟨hheight, hfirst⟩ := hsuspended.pin height target
    ((evolves_pin _ width target).addressable ht)
  obtain ⟨hwidth, hsecond⟩ := hfirst.pin width target ht
  exact ⟨hheight, hwidth, hsecond⟩

end Mirrors

/-! ### Size queries -/

/-- **Specifications that mirror each other do so after a query.** -/
theorem Mirrors.sizeQuery {ρ : Equiv.Perm Slot} {s s' t t' : Spec α} (h : Mirrors ρ s t)
    {width height : VariableId} {target : α} {unbounded size size' : Size α}
    (hs : s.sizeQuery width height target unbounded = .ok (size, s'))
    (ht : t.sizeQuery width height target unbounded = .ok (size', t')) (hroom : t'.Addressable) :
    Mirrors ρ s' t' := by
  have hroom₁ := (evolves_pinned_sizeQuery ht).addressable hroom
  obtain ⟨-, -, rfl⟩ := sizeQuery_ok hs
  obtain ⟨-, -, rfl⟩ := sizeQuery_ok ht
  have hroom₀ : t.Addressable := (t.evolves_pinned width height target).addressable hroom₁
  obtain ⟨hheight, hwidth, hpinned⟩ := h.pinned width height target hroom₁
  rw [hheight, hwidth]
  exact ((hpinned.solve.drop _).drop _).foldl_setSuspended false (h.mem_suspendable hroom₀)

end ElasticLayout.Spec
