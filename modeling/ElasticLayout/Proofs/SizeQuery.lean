import ElasticLayout.Proofs.Upkeep

/-!
# Size queries give everything back

A size query suspends the soft constraints of the caller with what they own, adds two pins, solves,
removes the pins and resumes what it suspended.  In a specification where nothing was suspended the
registry is afterwards what it was.

* `Registry.mark`, `Registry.family` -- suspending, and what is suspended with a constraint;
* `Spec.QueryStages`, `Spec.exists_queryStages` -- what happens in an answered query;
* `Spec.QueryStages.registry₂` -- the registry while the query solves;
* `Spec.registry_sizeQuery` -- the registry after the query.
-/

namespace ElasticLayout

variable {α : Type}

namespace Registry

/-- Suspend or resume constraints. -/
def mark (r : Registry α) (suspended : Bool) (ks : List ConstraintId) : Registry α :=
  { r with constraint? := fun k =>
      if k ∈ ks then (r.constraint? k).map fun c => { c with isSuspended := suspended }
      else r.constraint? k }

/-- A constraint with the slack penalty and the slack bounds that it owns. -/
def family (r : Registry α) (k : ConstraintId) : List ConstraintId :=
  match (r.constraint? k).map Constraint.elastic with
  | none => []
  | some none => [k]
  | some (some e) => k :: e.penalty :: ((r.extent? e.slack).map Extent.bounds).getD []

theorem constraint?_mark (r : Registry α) (suspended : Bool) (ks : List ConstraintId)
    (k : ConstraintId) : (r.mark suspended ks).constraint? k =
      if k ∈ ks then (r.constraint? k).map fun c => { c with isSuspended := suspended }
      else r.constraint? k := rfl

theorem elastic_mark (r : Registry α) (suspended : Bool) (ks : List ConstraintId)
    (k : ConstraintId) : ((r.mark suspended ks).constraint? k).map Constraint.elastic
      = (r.constraint? k).map Constraint.elastic := by
  rw [constraint?_mark]
  split
  · rw [Option.map_map]
    rfl
  · rfl

theorem mark_append (r : Registry α) (suspended : Bool) (ks js : List ConstraintId) :
    (r.mark suspended ks).mark suspended js = r.mark suspended (ks ++ js) := by
  refine Registry.ext rfl (funext fun k => ?_)
  simp only [constraint?_mark, List.mem_append]
  by_cases hk : k ∈ ks <;> by_cases hj : k ∈ js <;> simp [hk, hj, Function.comp_def]

theorem mark_mark (r : Registry α) (a b : Bool) (ks : List ConstraintId) :
    (r.mark a ks).mark b ks = r.mark b ks := by
  refine Registry.ext rfl (funext fun k => ?_)
  simp only [constraint?_mark]
  by_cases hk : k ∈ ks <;> simp [hk, Function.comp_def]

theorem mark_false {r : Registry α} (h : ∀ k c, r.constraint? k = some c → c.isSuspended = false)
    (ks : List ConstraintId) : r.mark false ks = r := by
  refine Registry.ext rfl (funext fun k => ?_)
  rw [constraint?_mark]
  split
  · cases hk : r.constraint? k with
    | none => rfl
    | some c =>
      rw [Option.map_some, ← h k c hk]
  · rfl

theorem family_mark (r : Registry α) (suspended : Bool) (ks : List ConstraintId) :
    (r.mark suspended ks).family = r.family := by
  funext k
  unfold family
  rw [elastic_mark]
  rfl

end Registry

namespace Spec

/-! ### Suspending -/

theorem registry_foldl_mark (suspended : Bool) (ks : List ConstraintId) (s : Spec α) :
    (ks.foldl (fun s k => s.modifyConstraint k fun c => { c with isSuspended := suspended })
      s).registry = s.registry.mark suspended ks := by
  induction ks generalizing s with
  | nil => exact Registry.ext rfl (by funext k; simp [Registry.constraint?_mark])
  | cons first rest ih =>
    rw [List.foldl_cons, ih, registry_modifyConstraint]
    have hfirst : s.registry.putConstraint first ((s.registry.constraint? first).map fun c =>
        { c with isSuspended := suspended }) = s.registry.mark suspended [first] := by
      refine Registry.ext rfl (funext fun k => ?_)
      rw [Registry.constraint?_putConstraint, Registry.constraint?_mark]
      by_cases hk : k = first <;> simp [hk]
    rw [hfirst, Registry.mark_append]
    rfl

/-- A constraint is suspended with what it owns, one after the other. -/
theorem setSuspended_eq_foldl (suspended : Bool) (s : Spec α) (id : ConstraintId) :
    s.setSuspended suspended id = (s.registry.family id).foldl
      (fun s k => s.modifyConstraint k fun c => { c with isSuspended := suspended }) s := by
  unfold setSuspended Registry.family
  rw [registry_constraint?]
  cases s.getConstraint? id with
  | none => rfl
  | some c =>
    dsimp only [Option.map_some]
    cases c.elastic with
    | none => rfl
    | some e =>
      dsimp only
      rw [show (s.registry.extent? e.slack).map Extent.bounds
        = (s.getVariable? e.slack).map (·.bounds) from Option.map_map ..]

theorem registry_setSuspended (suspended : Bool) (s : Spec α) (id : ConstraintId) :
    (s.setSuspended suspended id).registry
      = s.registry.mark suspended (s.registry.family id) := by
  rw [setSuspended_eq_foldl, registry_foldl_mark]

theorem registry_foldl_setSuspended (suspended : Bool) (ids : List ConstraintId) (s : Spec α) :
    (ids.foldl (setSuspended suspended) s).registry
      = s.registry.mark suspended (ids.flatMap s.registry.family) := by
  induction ids generalizing s with
  | nil => exact Registry.ext rfl (by funext k; simp [Registry.constraint?_mark])
  | cons first rest ih =>
    rw [List.foldl_cons, ih, registry_setSuspended, Registry.family_mark, Registry.mark_append]
    rfl

/-! ### Pins -/

variable [Scalar α]

/-- The constraint that pulls a variable towards a target. -/
def pinConstraint (s : Spec α) (id : VariableId) (target : α) : Constraint α :=
  .fresh [⟨1, id⟩] .eq target s.options.sizePenalty s.options.sizePenalty .user

theorem register_pinConstraint (s : Spec α) (id : VariableId) (target : α) :
    s.register (s.pinConstraint id target) = s.pin id target := rfl

/-- A pin is an equality, and gets no slack. -/
theorem isSoftInequality_pinConstraint (s : Spec α) (id : VariableId) (target : α) :
    (s.pinConstraint id target).isSoftInequality = false :=
  isSoftInequality_of_slackCoefficient? rfl

theorem pin_eq_place {s : Spec α} (hs : s.Tidy) {id : VariableId} {target : α}
    (hplace : (s.place (s.pinConstraint id target)).2.Addressable) :
    s.pin id target = s.place (s.pinConstraint id target) :=
  register_eq_place hs (isSoftInequality_pinConstraint s id target) hplace

/-- What shows neither the values that are written nor the code is the same after a solve. -/
theorem solve_keeps {γ : Type} (view : Spec α → γ)
    (hassign : ∀ (s : Spec α) (values : List (VariableId × α)), view (s.assign values) = view s)
    (hresult : ∀ (s : Spec α) (code : ResultCode), view { s with result := code } = view s)
    (s : Spec α) : view s.solve = view s := by
  unfold solve
  split
  · exact (hresult _ _).trans (hassign s _)
  · exact hresult s _

theorem registry_solve (s : Spec α) : s.solve.registry = s.registry :=
  solve_keeps registry registry_assign (fun _ _ => rfl) s

/-- What happens in an answered size query: the soft constraints are suspended, two pins are stored,
the specification is solved, the pins are removed, and the soft constraints are resumed. -/
structure QueryStages (s t : Spec α) (width height : VariableId) (target : α)
    (s₀ s₁ s₂ : Spec α) (k₁ k₂ : ConstraintId) : Prop where
  suspended : s₀ = s.suspendable.foldl (setSuspended true) s
  heightPin : s₀.place (s₀.pinConstraint height target) = (k₁, s₁)
  widthPin : s₁.place (s₁.pinConstraint width target) = (k₂, s₂)
  restored : t = s.suspendable.foldl (setSuspended false) ((s₂.solve.withdraw k₁).withdraw k₂)
  tidy₀ : s₀.Tidy
  tidy₁ : s₁.Tidy
  room₁ : s₁.Addressable
  room₂ : s₂.Addressable

/-- Both pins are fresh, and the registry has them besides what it had. -/
theorem QueryStages.registry₂ {s t s₀ s₁ s₂ : Spec α} {width height : VariableId} {target : α}
    {k₁ k₂ : ConstraintId} (h : s.QueryStages t width height target s₀ s₁ s₂ k₁ k₂) :
    s₀.registry.constraint? k₁ = none ∧ s₀.registry.constraint? k₂ = none ∧ k₁ ≠ k₂ ∧
      s₂.registry = (s₀.registry.putConstraint k₁ (some (s₀.pinConstraint height target))
        ).putConstraint k₂ (some (s₁.pinConstraint width target)) := by
  have hfirst := registry_place h.tidy₀ (c := s₀.pinConstraint height target)
    (by rw [h.heightPin]; exact h.room₁)
  have hsecond := registry_place h.tidy₁ (c := s₁.pinConstraint width target)
    (by rw [h.widthPin]; exact h.room₂)
  rw [h.heightPin] at hfirst
  rw [h.widthPin] at hsecond
  obtain ⟨hfresh, hregistry⟩ := hfirst
  obtain ⟨hfresh', hregistry'⟩ := hsecond
  dsimp only at hfresh hregistry hfresh' hregistry'
  rw [hregistry] at hfresh' hregistry'
  exact ⟨hfresh, by grind, by grind, hregistry'⟩

/-- Both pins are there when they are to be removed. -/
theorem QueryStages.pins_live {s t s₀ s₁ s₂ : Spec α} {width height : VariableId} {target : α}
    {k₁ k₂ : ConstraintId} (h : s.QueryStages t width height target s₀ s₁ s₂ k₁ k₂) :
    s₂.solve.registry.constraint? k₁ = some (s₀.pinConstraint height target) ∧
      (s₂.solve.withdraw k₁).registry.constraint? k₂ = some (s₁.pinConstraint width target) := by
  obtain ⟨-, -, hne, hregistry⟩ := h.registry₂
  rw [registry_withdraw, registry_solve, hregistry]
  exact ⟨by grind, by grind⟩

/-- **A query is answered in stages.** -/
theorem exists_queryStages {s t : Spec α} (hs : s.Tidy) {width height : VariableId} {target : α}
    {unbounded size : Size α} (h : s.sizeQuery width height target unbounded = .ok (size, t))
    (hroom : t.Addressable) :
    ∃ s₀ s₁ s₂ k₁ k₂, s.QueryStages t width height target s₀ s₁ s₂ k₁ k₂ := by
  have hroom₂ := (evolves_pinned_sizeQuery h).addressable hroom
  obtain ⟨-, -, ht⟩ := sizeQuery_ok h
  obtain ⟨s₀, hs₀⟩ : ∃ t, t = s.suspendable.foldl (setSuspended true) s := ⟨_, rfl⟩
  obtain ⟨⟨k₁, s₁⟩, hp⟩ : ∃ t, t = s₀.pin height target := ⟨_, rfl⟩
  obtain ⟨⟨k₂, s₂⟩, hq⟩ : ∃ t, t = s₁.pin width target := ⟨_, rfl⟩
  have hpinned : s.pinned width height target = ((k₁, k₂), s₂) := by
    unfold pinned
    rw [← hs₀]
    dsimp only
    rw [← hp]
    dsimp only
    rw [← hq]
  simp only [hpinned] at ht hroom₂
  rw [← register_pinConstraint] at hp hq
  have hroom₁ : s₁.Addressable := by
    refine (evolves_register s₁ (s₁.pinConstraint width target)).addressable ?_
    rwa [← hq]
  have htidy₀ : s₀.Tidy := hs₀ ▸ (Evolves.foldl_zero (evolves_setSuspended true) _ s).tidy hs
  have htidy₁ : s₁.Tidy := by
    have htidy := (evolves_register s₀ (s₀.pinConstraint height target)).tidy htidy₀
    rwa [← hp] at htidy
  -- A pin is placed before it would be given a slack.
  have hplace : ∀ (u : Spec α) (c : Constraint α), (u.register c).2.Addressable →
      (u.place c).2.Addressable := fun u c => (evolves_attach _ (u.place c).1).addressable
  rw [register_eq_place htidy₀ (isSoftInequality_pinConstraint _ _ _)
    (hplace _ _ (by rw [← hp]; exact hroom₁))] at hp
  rw [register_eq_place htidy₁ (isSoftInequality_pinConstraint _ _ _)
    (hplace _ _ (by rw [← hq]; exact hroom₂))] at hq
  have hstages : s.QueryStages (s.suspendable.foldl (setSuspended false)
      ((s₂.solve.withdraw k₁).withdraw k₂)) width height target s₀ s₁ s₂ k₁ k₂ :=
    ⟨hs₀, hp.symm, hq.symm, rfl, htidy₀, htidy₁, hroom₁, hroom₂⟩
  obtain ⟨hfirst, hsecond⟩ := hstages.pins_live
  -- A pin owns nothing, so that dropping it is removing it.
  have hdrop₁ : s₂.solve.drop k₁ = s₂.solve.withdraw k₁ :=
    drop_of_rigid fun c hc => by
      obtain rfl := Option.some.inj (hfirst.symm.trans hc)
      rfl
  have hdrop₂ : (s₂.solve.withdraw k₁).drop k₂ = (s₂.solve.withdraw k₁).withdraw k₂ :=
    drop_of_rigid fun c hc => by
      obtain rfl := Option.some.inj (hsecond.symm.trans hc)
      rfl
  refine ⟨s₀, s₁, s₂, k₁, k₂, ?_⟩
  rw [ht, hdrop₁, hdrop₂]
  exact hstages

/-- **A size query gives everything back**, if nothing was suspended before. -/
theorem registry_sizeQuery {s t : Spec α} (hs : s.Tidy)
    (hresumed : ∀ k c, s.registry.constraint? k = some c → c.isSuspended = false)
    {width height : VariableId} {target : α} {unbounded size : Size α}
    (h : s.sizeQuery width height target unbounded = .ok (size, t)) (hroom : t.Addressable) :
    t.registry = s.registry := by
  obtain ⟨s₀, s₁, s₂, k₁, k₂, hstages⟩ := exists_queryStages hs h hroom
  obtain ⟨hfresh, hfresh', hne, hregistry⟩ := hstages.registry₂
  have hpins : ((s₂.solve.withdraw k₁).withdraw k₂).registry = s₀.registry := by
    rw [registry_withdraw, registry_withdraw, registry_solve, hregistry]
    refine Registry.ext rfl (funext fun k => ?_)
    grind
  rw [hstages.restored, registry_foldl_setSuspended, hpins, hstages.suspended,
    registry_foldl_setSuspended, Registry.family_mark, Registry.mark_mark,
    Registry.mark_false hresumed]

end Spec

end ElasticLayout
