import ElasticLayout.Proofs.Ownership
import ElasticLayout.Proofs.Stages

/-!
# What the internal changes do to the registry

One lemma for each change that makes or removes internal constraints.

* `Spec.endSynced_syncBound` -- one end of a range with its bound constraint;
* `Spec.RangeStages.endSynced_lower`, `Spec.RangeStages.endSynced_upper`,
  `Spec.rangeSynced_applyRange` -- the stages of setting a range, and the whole of it;
* `Spec.slackGiven_attachSlack`, `Spec.slackGiven_detach` -- slacks.
-/

namespace ElasticLayout.Spec

variable {α : Type} [Scalar α]

/-! ### Ranges -/

/-- A bound constraint as it is made. -/
theorem isBound_fresh (id : VariableId) (relation : Relation) (limit : α) :
    (Constraint.fresh [⟨1, id⟩] relation limit 0 0 (.bound id)).IsBound id relation limit :=
  ⟨rfl, rfl, rfl, rfl, rfl, rfl, rfl⟩

/-- **One end of a range is brought in step.** -/
theorem endSynced_syncBound {s : Spec α} (hs : s.Tidy) (id : VariableId)
    (existing : Option ConstraintId) (relation : Relation) (old limit : α) (needed : Bool)
    (hroom : (s.syncBound id existing relation limit needed).2.Addressable)
    (hold : ∀ k, existing = some k → ∃ c, s.registry.constraint? k = some c ∧
      c.IsBound id relation old ∧ c.isSuspended = false) :
    s.registry.EndSynced (s.syncBound id existing relation limit needed).2.registry id existing
      (s.syncBound id existing relation limit needed).1 relation limit (needed = true) := by
  cases existing with
  | some bound =>
    obtain ⟨c, hc, hbound, hresumed⟩ := hold bound rfl
    cases needed with
    | true =>
      have hregistry : (s.syncBound id (some bound) relation limit true).2.registry
          = s.registry.putConstraint bound (some { c with right := limit }) := by
        show (s.modifyConstraint bound _).registry = _
        rw [registry_modifyConstraint, hc]
        rfl
      rw [hregistry]
      exact .put (.inl rfl) { hbound with right := rfl } hresumed rfl
    | false =>
      show s.registry.EndSynced (s.withdraw bound).registry id (some bound) none relation limit _
      rw [registry_withdraw]
      exact .erased (by simp)
  | none =>
    cases needed with
    | true =>
      obtain ⟨hnone, hregistry⟩ := registry_place hs hroom
      show s.registry.EndSynced (s.place _).2.registry id none (some (s.place _).1) relation limit _
      rw [hregistry]
      exact .put (.inr ⟨rfl, hnone⟩) (isBound_fresh id relation limit) rfl rfl
    | false => exact .unbound (by simp)

namespace RangeStages

variable {s s₁ s₂ s₃ : Spec α} {id : VariableId} {v : Variable α} {lower upper : α}
  {lowerBound upperBound : Option ConstraintId}

/-- The ends are set. -/
theorem registry₁ (h : s.RangeStages id v lower upper s₁ s₂ s₃ lowerBound upperBound)
    (hv : s.getVariable? id = some v) :
    s₁.registry
      = s.registry.putExtent id (some { v.extent with lower := lower, upper := upper }) := by
  rw [h.ends, registry_modifyVariable, hv]
  rfl

/-- The lower end is brought in step. -/
theorem endSynced_lower (h : s.RangeStages id v lower upper s₁ s₂ s₃ lowerBound upperBound)
    (hs : s.Tidy) (hv : s.getVariable? id = some v) (hkept : s.registry.RangeKept id v.extent)
    (hresumed : ∀ k ∈ v.extent.bounds, ∀ c, s.registry.constraint? k = some c →
      c.isSuspended = false) (hroom : s₂.Addressable) :
    s₁.registry.EndSynced s₂.registry id v.lowerBound lowerBound .ge lower
      (Variable.defaultLower < lower) := by
  have hsync := endSynced_syncBound (h.tidy₁ hs) id v.lowerBound .ge v.lower lower
    (Variable.defaultLower < lower) (by rw [h.lowerEnd]; exact hroom) (by
      intro k hk
      obtain ⟨c, hc, hbound⟩ := hkept.lower.2 k hk
      exact ⟨c, by rw [h.registry₁ hv]; exact hc, hbound,
        hresumed k (Extent.mem_bounds.2 (.inl hk)) c hc⟩)
  rw [h.lowerEnd] at hsync
  simpa using hsync

/-- The upper end is brought in step. -/
theorem endSynced_upper (h : s.RangeStages id v lower upper s₁ s₂ s₃ lowerBound upperBound)
    (hs : s.Tidy) (hv : s.getVariable? id = some v) (hkept : s.registry.RangeKept id v.extent)
    (hresumed : ∀ k ∈ v.extent.bounds, ∀ c, s.registry.constraint? k = some c →
      c.isSuspended = false)
    (hlower : s₁.registry.EndSynced s₂.registry id v.lowerBound lowerBound .ge lower
      (Variable.defaultLower < lower)) (hroom : s₃.Addressable) :
    s₂.registry.EndSynced s₃.registry id v.upperBound upperBound .le upper
      (upper < Variable.defaultUpper) := by
  have hsync := endSynced_syncBound (h.tidy₂ hs) id v.upperBound .le v.upper upper
    (upper < Variable.defaultUpper) (by rw [h.upperEnd]; exact hroom) (by
      intro k hk
      obtain ⟨c, hc, hbound⟩ := hkept.upper.2 k hk
      have hc₁ : s₁.registry.constraint? k = some c := by
        rw [h.registry₁ hv]
        exact hc
      -- The handle of the upper end is neither the old nor the new one of the lower end.
      have hold : v.lowerBound ≠ some k := hkept.lowerBound_ne hk
      have hnew : lowerBound ≠ some k := by
        intro hk'
        obtain hk' | hnone := hlower.fresh k hk'
        · exact hold hk'
        · exact absurd (hnone.symm.trans hc₁) (by simp)
      exact ⟨c, (hlower.others k hold hnew).trans hc₁, hbound,
        hresumed k (Extent.mem_bounds.2 (.inr hk)) c hc⟩)
  rw [h.upperEnd] at hsync
  simpa using hsync

/-- The links are set. -/
theorem registry_links (h : s.RangeStages id v lower upper s₁ s₂ s₃ lowerBound upperBound)
    (hx : s₃.registry.extent? id = some { v.extent with lower := lower, upper := upper }) :
    (s.applyRange id lower upper).registry
      = s₃.registry.putExtent id (some ⟨lower, upper, lowerBound, upperBound, v.isSlack⟩) := by
  obtain ⟨w, hw, hwv⟩ := getVariable?_of_extent? hx
  have hlower : w.lower = lower := congrArg Extent.lower hwv
  have hupper : w.upper = upper := congrArg Extent.upper hwv
  have hslack : w.isSlack = v.isSlack := congrArg Extent.isSlack hwv
  rw [h.links, registry_modifyVariable, hw, ← hslack]
  show s₃.registry.putExtent id (some ⟨w.lower, w.upper, lowerBound, upperBound, w.isSlack⟩) = _
  rw [hlower, hupper]

end RangeStages

/-- **The range of a variable is set.** -/
theorem rangeSynced_applyRange {s : Spec α} (hs : s.Tidy) {id : VariableId} {x : Extent α}
    (hx : s.registry.extent? id = some x) (hkept : s.registry.RangeKept id x)
    (hresumed : ∀ k ∈ x.bounds, ∀ c, s.registry.constraint? k = some c → c.isSuspended = false)
    {lower upper : α} (hroom : (s.applyRange id lower upper).Addressable) :
    ∃ y : Extent α, y.lower = lower ∧ y.upper = upper ∧ y.isSlack = x.isSlack ∧
      s.registry.RangeSynced (s.applyRange id lower upper).registry id x y := by
  obtain ⟨v, hv, rfl⟩ := getVariable?_of_extent? hx
  obtain ⟨s₁, s₂, s₃, lowerBound, upperBound, hstages⟩ := exists_rangeStages hv lower upper
  have hlower := hstages.endSynced_lower hs hv hkept hresumed (hstages.room₂ hroom)
  have hupper := hstages.endSynced_upper hs hv hkept hresumed hlower (hstages.room₃ hroom)
  have hextent : s₃.registry.extent? id
      = some { v.extent with lower := lower, upper := upper } := by
    rw [hupper.extents, hlower.extents, hstages.registry₁ hv, Registry.extent?_putExtent,
      if_pos rfl]
  have hkept₁ : s₁.registry.RangeKept id v.extent := by
    rw [hstages.registry₁ hv]
    exact ⟨hkept.lower, hkept.upper⟩
  have hsynced := Registry.RangeSynced.of_ends
    (y := ⟨lower, upper, lowerBound, upperBound, v.isSlack⟩) hkept₁ hlower hupper
  rw [hstages.registry₁ hv] at hsynced
  rw [hstages.registry_links hextent]
  exact ⟨⟨lower, upper, lowerBound, upperBound, v.isSlack⟩, rfl, rfl, rfl, hsynced.of_putExtent⟩

/-! ### Slacks -/

/-- The constraint that penalizes a slack, as it is made. -/
theorem isPenaltyOf_penaltyOf (id : ConstraintId) (c : Constraint α) (slack : VariableId) :
    (penaltyOf id c slack).IsPenaltyOf id c slack :=
  ⟨rfl, rfl, rfl, rfl, rfl, rfl, rfl⟩

/-- The range of a new slack gives it one bound constraint. -/
theorem SlackStages.registry₂ [RangeScalar α] {s s₁ s₂ s₃ s₄ : Spec α} {id : ConstraintId}
    {c : Constraint α} {a : α} {slack : VariableId} {penalty : ConstraintId} (hs : s.Tidy)
    (h : s.SlackStages id c a s₁ s₂ s₃ s₄ slack penalty) (hroom : s₂.Addressable) :
    s.registry.extent? slack = none ∧ ∃ b bound, s.registry.constraint? b = none ∧
      bound.IsBound slack .ge (0 : α) ∧ bound.isSuspended = false ∧
      s₂.registry = (s.registry.putExtent slack
        (some ⟨0, Variable.slackUpper, some b, none, true⟩)).putConstraint b (some bound) := by
  have hroom₁ : s₁.Addressable := (evolves_applyRange _ _ _ _).addressable (h.ranged ▸ hroom)
  obtain ⟨hfresh, hr₁⟩ := s.registry_insertVariable hs (v := Variable.fresh none true)
    (h.inserted ▸ hroom₁).1
  rw [← h.handle] at hfresh hr₁
  rw [← h.inserted] at hr₁
  have hx : s₁.registry.extent? slack = some (Variable.fresh none true : Variable α).extent := by
    rw [hr₁]
    grind
  obtain ⟨y, hlower, hupper, hisSlack, hsynced⟩ := rangeSynced_applyRange (h.tidy₁ hs) hx
    (.fresh _ slack none true) (by simp [Variable.extent, Variable.fresh]) (h.ranged ▸ hroom)
  rw [← h.ranged] at hsynced
  obtain ⟨b, hb, hnone⟩ := hsynced.kept.slack_bounds hlower hupper
  obtain ⟨bound, hbound, hisBound⟩ := hsynced.kept.lower.2 b hb
  have hbmem : b ∈ y.bounds := Extent.mem_bounds.2 (.inl hb)
  have hy : y = ⟨0, Variable.slackUpper, some b, none, true⟩ := by
    rw [← hlower, ← hupper, ← hb, ← hnone, ← show y.isSlack = true from hisSlack]
  have hbfresh := (hsynced.fresh b hbmem).resolve_left (by simp [Variable.extent, Variable.fresh])
  rw [hr₁] at hbfresh
  refine ⟨hfresh, b, bound, hbfresh, hlower ▸ hisBound, hsynced.resumed b hbmem bound hbound,
    Registry.ext (funext fun w => ?_) (funext fun k => ?_)⟩
  · have hextent := hsynced.extents w
    grind
  · have hother := hsynced.others k (by simp [Variable.extent, Variable.fresh])
    grind

/-- **A slack is given.** -/
theorem slackGiven_attachSlack [RangeScalar α] {s : Spec α} (hs : s.Tidy) {id : ConstraintId}
    {c : Constraint α} (hc : s.registry.constraint? id = some c) (a : α)
    (hroom : (s.attachSlack id c a).Addressable) :
    ∃ e b, e.coefficient = a ∧ s.registry.SlackGiven (s.attachSlack id c a).registry id c e b := by
  obtain ⟨s₁, s₂, s₃, s₄, slack, penalty, hstages⟩ := exists_slackStages s id c a
  obtain ⟨hfresh, b, bound, hbfresh, hbound, hresumed, hr₂⟩ :=
    hstages.registry₂ hs (hstages.room₂ hroom)
  -- The left side, the penalty and the link.
  have hr₃ : s₃.registry = s₂.registry.putConstraint id
      (some { c with left := c.left ++ [⟨a, slack⟩] }) := by
    have hid : s₂.registry.constraint? id = some c := by
      rw [hr₂]
      grind
    rw [hstages.extended, registry_retain, registry_modifyConstraint, hid]
    rfl
  have hpenalized := registry_place (hstages.tidy₃ hs) (c := penaltyOf id c slack)
    (by rw [hstages.penalized]; exact hstages.room₄ hroom)
  rw [hstages.penalized] at hpenalized
  obtain ⟨hpfresh, hr₄⟩ := hpenalized
  dsimp only at hpfresh hr₄
  have hpid : penalty ≠ id := by grind
  have hpb : penalty ≠ b := by grind
  have hr : (s.attachSlack id c a).registry
      = (s₃.registry.putConstraint penalty (some (penaltyOf id c slack))).putConstraint id
        (some (c.withSlack ⟨slack, a, penalty⟩)) := by
    have hid : (s₃.registry.putConstraint penalty (some (penaltyOf id c slack))).constraint? id
        = some { c with left := c.left ++ [⟨a, slack⟩] } := by
      rw [Registry.constraint?_putConstraint, if_neg hpid.symm, hr₃,
        Registry.constraint?_putConstraint, if_pos rfl]
    rw [hstages.linked, registry_modifyConstraint, hr₄, hid]
    rfl
  rw [hr, hr₃, hr₂]
  refine ⟨⟨slack, a, penalty⟩, b, rfl, ?_⟩
  exact {
    before := hc
    after := by grind
    no_slack := hfresh
    slack := by grind
    no_bound := hbfresh
    bound := ⟨bound, by grind, hbound, hresumed⟩
    no_penalty := by grind
    penalty := ⟨penaltyOf id c slack, by grind, isPenaltyOf_penaltyOf id c slack, rfl⟩
    extents := by
      intro w hw
      grind
    constraints := by
      intro j hjk hjb hjp
      grind }

/-- **A slack is taken back.** -/
theorem slackGiven_detach [RangeScalar α] {s : Spec α} (h : s.registry.Owned none)
    {id : ConstraintId} {c : Constraint α} {e : Elastic α}
    (hc : s.registry.constraint? id = some c) (he : c.elastic = some e) :
    ∃ b, (s.detach id).registry.SlackGiven s.registry id c.shown e b := by
  have howns := h.owns id c e hc he
  obtain ⟨x, hx, hisSlack, hlower, hupper⟩ := howns.slack
  obtain ⟨q, hq, hpenalty⟩ := howns.penalty
  have hkept := h.range e.slack x hx
  obtain ⟨b, hb, hnone⟩ := hkept.slack_bounds hlower hupper
  obtain ⟨bound, hbound, hisBound⟩ := hkept.lower.2 b hb
  have hxb : x = ⟨0, Variable.slackUpper, some b, none, true⟩ := by
    rw [← hlower, ← hupper, ← hb, ← hnone, ← hisSlack]
  have hown := Constraint.ownTerms_of_elastic he
  obtain ⟨d, hd⟩ : ∃ d : Constraint α, d = c.shown := ⟨_, rfl⟩
  have hwith : c = d.withSlack e := by
    rw [hd]
    show c = { c with left := c.ownTerms ++ [⟨e.coefficient, e.slack⟩], elastic := some e }
    rw [← howns.left, ← he]
  have hregistry : (s.detach id).registry = ((((s.registry.putConstraint id (some d)).putConstraint
      e.penalty none).erase x.bounds).putExtent e.slack none) := by
    rw [detach_eq hc he, registry_dropVariable (x := x)]
    · rw [registry_withdraw, registry_release, registry_modifyConstraint, hc, hd, Constraint.shown,
        hown]
      rfl
    · rw [registry_withdraw, registry_release, registry_modifyConstraint]
      exact hx
  -- The four handles that change hold constraints of different roles.
  have hrole := howns.role
  have hidb : id ≠ b := by grind [hisBound.role]
  have hidp : id ≠ e.penalty := by grind [hpenalty.role]
  have hbp : b ≠ e.penalty := by grind [hisBound.role, hpenalty.role]
  have hmem : ∀ k, k ∈ x.bounds ↔ k = b := by
    intro k
    rw [Extent.mem_bounds, hb, hnone]
    grind
  rw [← hd, hregistry]
  refine ⟨b, ?_⟩
  exact {
    before := by grind
    after := hwith ▸ hc
    no_slack := by grind
    slack := by rw [hx, hxb]
    no_bound := by grind
    bound := ⟨bound, hbound, hlower ▸ hisBound, h.resumed b bound hbound⟩
    no_penalty := by grind
    penalty := ⟨q, hq, by rw [hd]; exact { hpenalty with }, h.resumed _ q hq⟩
    extents := by
      intro w hw
      grind
    constraints := by
      intro k hk hkb hkp
      grind }

end ElasticLayout.Spec
