import ElasticLayout.Proofs.Expansion
import ElasticLayout.Proofs.Merging

/-!
# Changes keep the ownership

Between the moment a constraint of the caller loses its slack and the moment it gets a new one it is
pending.  Storing, removing and changing a constraint start and end with nothing pending.

* `Spec.register_of_isInternal`, `Spec.drop_of_isInternal` -- internal constraints own nothing;
* `Spec.owned_attach` -- a pending constraint is settled;
* `Spec.Detached`, `Spec.detached_detach` -- a constraint of the caller becomes pending;
* `Spec.owned_register`, `Spec.dropped_drop`, `Spec.owned_mutate` -- whole changes.
-/

namespace ElasticLayout

variable {α : Type}

namespace Spec

variable [Scalar α] [RangeScalar α]

/-! ### Constraints without slack -/

omit [RangeScalar α] in
/-- What is no soft inequality gets no slack. -/
theorem attach_of_not_softInequality {s : Spec α} {id : ConstraintId} {c : Constraint α}
    (hc : s.getConstraint? id = some c) (hsoft : c.isSoftInequality = false) :
    s.attach id = s :=
  attach_of_settled fun d hd => .inr (by rwa [← Option.some.inj (hc.symm.trans hd)])

omit [RangeScalar α] in
/-- What is no soft inequality is stored by placing it. -/
theorem register_eq_place {s : Spec α} (hs : s.Tidy) {c : Constraint α}
    (hc : c.isSoftInequality = false) (hplace : (s.place c).2.Addressable) :
    s.register c = s.place c := by
  have hget : (s.place c).2.getConstraint? (s.place c).1 = some c := by
    show (s.place c).2.registry.constraint? _ = _
    rw [(registry_place hs hplace).2, Registry.constraint?_putConstraint, if_pos rfl]
  show ((s.place c).1, (s.place c).2.attach (s.place c).1) = _
  rw [attach_of_not_softInequality hget hc]

/-- **An internal constraint is stored by placing it, and dropped by withdrawing it.**  So there is
no recursion: what is stored or dropped on behalf of a constraint owns nothing itself. -/
theorem register_of_isInternal {s : Spec α} (hs : s.Tidy) {c : Constraint α} (hc : c.IsInternal)
    (hplace : (s.place c).2.Addressable) : s.register c = s.place c :=
  register_eq_place hs hc.isSoftInequality hplace

omit [RangeScalar α] in
theorem drop_of_isInternal {s : Spec α} {id : ConstraintId}
    (h : ∀ c, s.registry.constraint? id = some c → c.IsInternal) : s.drop id = s.withdraw id :=
  drop_of_rigid fun c hc => (h c hc).elastic

/-! ### Giving a slack -/

/-- **A pending constraint is settled.** -/
theorem owned_attach {s : Spec α} (hs : s.Tidy) {id : ConstraintId}
    (h : s.registry.Owned (some id)) (hroom : (s.attach id).Addressable) :
    (s.attach id).registry.Owned none := by
  obtain hsettled | ⟨c, a, hc, helastic, hsoft, ha⟩ := s.settled_or_pending id
  · rw [attach_of_settled hsettled]
    refine h.settle fun c hc => ?_
    obtain ⟨-, helastic⟩ := h.pending_rigid id c hc rfl
    exact (hsettled c hc).resolve_left (by simp [helastic])
  · rw [attach_of_softInequality hc helastic hsoft ha] at hroom ⊢
    obtain ⟨e, b, he, g⟩ := slackGiven_attachSlack hs hc a hroom
    exact h.attach g hsoft (he ▸ ha)

omit [RangeScalar α] in
/-- A stored constraint of the caller is pending. -/
theorem owned_place {s : Spec α} (hs : s.Tidy) (h : s.registry.Owned none) {c : Constraint α}
    (hrole : c.role = .user) (hrigid : c.elastic = none) (hresumed : c.isSuspended = false)
    (hleft : ∀ term ∈ c.left, s.isUserVariable term.var = true)
    (hroom : (s.place c).2.Addressable) :
    (s.place c).2.registry.Owned (some (s.place c).1) := by
  obtain ⟨hfresh, hregistry⟩ := registry_place hs hroom
  rw [hregistry]
  refine h.putPending (.inl rfl) (fun d hd => absurd (hfresh.symm.trans hd) (by simp)) ?_
  rintro d ⟨⟩
  exact ⟨hrole, hrigid, hresumed, fun term hterm =>
    (s.isUserVariable_iff_extent? term.var).1 (hleft term hterm)⟩

/-- **A constraint of the caller is stored.** -/
theorem owned_register {s : Spec α} (hs : s.Tidy) (h : s.registry.Owned none) {c : Constraint α}
    (hrole : c.role = .user) (hrigid : c.elastic = none) (hresumed : c.isSuspended = false)
    (hleft : ∀ term ∈ c.left, s.isUserVariable term.var = true)
    (hroom : (s.register c).2.Addressable) : (s.register c).2.registry.Owned none :=
  owned_attach ((s.evolves_place c).tidy hs) (owned_place hs h hrole hrigid hresumed hleft
    ((evolves_attach _ _).addressable hroom)) hroom

/-! ### Taking a slack back -/

omit [Scalar α] [RangeScalar α] in
theorem registry_drop_of_rigid {s : Spec α} {id : ConstraintId}
    (h : ∀ c, s.registry.constraint? id = some c → c.elastic = none) :
    (s.drop id).registry = s.registry.putConstraint id none := by
  rw [drop_of_rigid h, registry_withdraw]

/-- What it means that a constraint of the caller has been made pending. -/
structure Detached (s t : Spec α) (id : ConstraintId) (c : Constraint α) : Prop where
  owned : t.registry.Owned (some id)
  constraint : t.registry.constraint? id = some c.shown
  extents : ∀ v x, s.registry.extent? v = some x → x.isSlack = false →
    t.registry.extent? v = some x
  others : ∀ k d, t.registry.constraint? k = some d → k ≠ id → s.registry.constraint? k = some d

theorem detached_detach {s : Spec α} (h : s.registry.Owned none) {id : ConstraintId}
    {c : Constraint α} (hc : s.registry.constraint? id = some c) (hrole : c.role = .user) :
    s.Detached (s.detach id) id c := by
  cases he : c.elastic with
  | none =>
    have hsame : s.detach id = s := detach_of_rigid fun d hd => by grind
    rw [hsame]
    refine ⟨?_, by rw [Constraint.shown_of_rigid he]; exact hc, fun v x hx _ => hx,
      fun k d hd _ => hd⟩
    exact { h with
      rigid := fun k d hk hd hsoft _ => h.rigid k d hk hd hsoft (by simp)
      pending_rigid := by
        rintro k d hd ⟨⟩
        obtain rfl := Option.some.inj (hc.symm.trans hd)
        exact ⟨hrole, he⟩ }
  | some e =>
    obtain ⟨b, g⟩ := slackGiven_detach h hc he
    have howns := h.owns id c e hc he
    refine ⟨h.detach g ?_ rfl, g.before, fun v x hx hslack => ?_, fun k d hd hk => ?_⟩
    · exact fun term hterm => Constraint.ne_slack_of_mem_ownTerms he hterm
    · rw [← g.extents v]
      · exact hx
      · rintro rfl
        obtain ⟨y, hy, hy', -⟩ := howns.slack
        obtain rfl := Option.some.inj (hx.symm.trans hy)
        exact absurd (hslack.symm.trans hy') (by simp)
    · exact g.constraint_of_before hd hk

/-- A dropped constraint of the caller is gone, and no other one is touched. -/
structure Dropped (s t : Spec α) (id : ConstraintId) : Prop where
  owned : t.registry.Owned none
  extents : ∀ v x, s.registry.extent? v = some x → x.isSlack = false →
    t.registry.extent? v = some x
  others : ∀ k d, t.registry.constraint? k = some d → k ≠ id ∧ s.registry.constraint? k = some d

/-- **A constraint of the caller is removed.** -/
theorem dropped_drop {s : Spec α} (h : s.registry.Owned none) {id : ConstraintId}
    {c : Constraint α} (hc : s.registry.constraint? id = some c) (hrole : c.role = .user) :
    s.Dropped (s.drop id) id := by
  have g := detached_detach h hc hrole
  have hregistry : (s.drop id).registry = (s.detach id).registry.putConstraint id none :=
    registry_withdraw _ id
  refine ⟨?_, fun v x hx hslack => ?_, fun k d hk => ?_⟩
  · rw [hregistry]
    have hremoved : ((s.detach id).registry.putConstraint id none).Owned (some id) :=
      g.owned.putPending (.inr rfl) (fun d hd => g.owned.pending_rigid id d hd rfl) (by simp)
    exact hremoved.settle fun d hd => by grind
  · rw [hregistry]
    exact g.extents v x hx hslack
  · have hne : k ≠ id := by
      rintro rfl
      grind
    exact ⟨hne, g.others k d (by grind) hne⟩

/-- A change of a constraint that leaves alone what is not the caller's. -/
structure IsUserChange (s : Spec α) (change : Constraint α → Constraint α) : Prop where
  role : ∀ c, (change c).role = c.role
  elastic : ∀ c, (change c).elastic = c.elastic
  isSuspended : ∀ c, (change c).isSuspended = c.isSuspended
  left : ∀ c, ∀ term ∈ (change c).left, term ∈ c.left ∨ s.isUserVariable term.var = true

omit [Scalar α] [RangeScalar α] in
/-- Variables of the caller stay such in a merged left side. -/
theorem isUserVariable_of_mem_mergeSummands [Add α] {s : Spec α} {left : List (Summand α)}
    (h : ∀ term ∈ left, s.isUserVariable term.var = true) :
    ∀ term ∈ mergeSummands left, s.isUserVariable term.var = true := by
  intro term hterm
  obtain ⟨old, hold, hvar⟩ := mem_mergeSummands hterm
  rw [hvar]
  exact h old hold

omit [RangeScalar α] in
theorem isUserChange_setLeft {s : Spec α} {left : List (Summand α)}
    (h : ∀ term ∈ left, s.isUserVariable term.var = true) :
    s.IsUserChange fun c => { c with left := mergeSummands left } :=
  ⟨fun _ => rfl, fun _ => rfl, fun _ => rfl, fun _ term hterm =>
    .inr (isUserVariable_of_mem_mergeSummands h term hterm)⟩

/-- A constraint of the caller is changed while it is pending. -/
theorem mutate_eq_attach {s : Spec α} (hs : s.Tidy) (h : s.registry.Owned none)
    {id : ConstraintId} {c : Constraint α} (hc : s.registry.constraint? id = some c)
    (hrole : c.role = .user) {change : Constraint α → Constraint α}
    (hchange : s.IsUserChange change) :
    ∃ t : Spec α, s.mutate id change = t.attach id ∧
      t = (((s.detach id).modifyConstraint id change).release c.shown.left).retain
        (change c.shown).left ∧ t.Tidy ∧ t.registry.Owned (some id) ∧
      t.registry = (s.detach id).registry.putConstraint id (some (change c.shown)) := by
  have g := detached_detach h hc hrole
  have hget : (s.detach id).getConstraint? id = some c.shown := g.constraint
  refine ⟨((s.detach id).modifyConstraint id change).release c.shown.left
    |>.retain (change c.shown).left, mutate_eq hget change, rfl, ?_, ?_⟩
  · exact (((s.evolves_detach id).trans (evolves_modifyConstraint _ _ _)).trans
      ((evolves_release _ _).trans (evolves_retain _ _))).tidy hs
  · have hregistry : ((((s.detach id).modifyConstraint id change).release c.shown.left).retain
        (change c.shown).left).registry
        = (s.detach id).registry.putConstraint id (some (change c.shown)) := by
      rw [registry_retain, registry_release, registry_modifyConstraint, g.constraint]
      rfl
    refine ⟨?_, hregistry⟩
    rw [hregistry]
    refine g.owned.putPending (.inr rfl) (fun d hd => g.owned.pending_rigid id d hd rfl) ?_
    rintro _ ⟨⟩
    refine ⟨(hchange.role _).trans hrole, (hchange.elastic _).trans rfl,
      (hchange.isSuspended _).trans (h.resumed id c hc), fun term hterm => ?_⟩
    rcases hchange.left _ term hterm with hold | hnew
    · obtain ⟨x, hx, hslack⟩ := h.own id c hc hrole term hold
      exact ⟨x, g.extents _ x hx hslack, hslack⟩
    · obtain ⟨x, hx, hslack⟩ := (s.isUserVariable_iff_extent? term.var).1 hnew
      exact ⟨x, g.extents _ x hx hslack, hslack⟩

/-- **A constraint of the caller is changed.** -/
theorem owned_mutate {s : Spec α} (hs : s.Tidy) (h : s.registry.Owned none) {id : ConstraintId}
    (hid : s.isUserConstraint id = true) {change : Constraint α → Constraint α}
    (hchange : s.IsUserChange change) (hroom : (s.mutate id change).Addressable) :
    (s.mutate id change).registry.Owned none := by
  obtain ⟨c, hc, hrole⟩ := (s.isUserConstraint_iff id).1 hid
  obtain ⟨t, ht, -, htidy, howned, -⟩ := mutate_eq_attach hs h hc hrole hchange
  rw [ht] at hroom ⊢
  exact owned_attach htidy howned hroom

/-! ### Variables -/

omit [RangeScalar α] in
/-- **The range of a variable of the caller is set.** -/
theorem owned_applyRange {s : Spec α} (hs : s.Tidy) (h : s.registry.Owned none) {id : VariableId}
    (hid : s.isUserVariable id = true) {lower upper : α}
    (hroom : (s.applyRange id lower upper).Addressable) :
    (s.applyRange id lower upper).registry.Owned none := by
  obtain ⟨x, hx, hslack⟩ := (s.isUserVariable_iff_extent? id).1 hid
  obtain ⟨y, -, -, hy, g⟩ := rangeSynced_applyRange hs hx (h.range id x hx)
    (fun k _ c hc => h.resumed k c hc) hroom
  exact h.setRange hx hslack (hy.trans hslack) g

omit [Scalar α] [RangeScalar α] in
theorem drop_of_stale {s : Spec α} {id : ConstraintId} (h : s.registry.constraint? id = none) :
    s.drop id = s := by
  rw [drop_of_rigid fun c hc => absurd (h.symm.trans hc) (by simp)]
  exact withdraw_of_stale h

/-- A handle that is stale, or that of a constraint of the caller. -/
theorem dropped_drop_of_role {s : Spec α} (h : s.registry.Owned none) {id : ConstraintId}
    (hrole : ∀ c, s.registry.constraint? id = some c → c.role = .user) :
    s.Dropped (s.drop id) id := by
  cases hc : s.registry.constraint? id with
  | some c => exact dropped_drop h hc (hrole c hc)
  | none =>
    rw [drop_of_stale hc]
    exact ⟨h, fun _ _ hx _ => hx, fun k d hk => ⟨by grind, hk⟩⟩

/-- **Constraints of the caller are dropped, one after the other.**  The ownership is kept, and so
is what dropping one of them keeps, be it said with the handles that have been dropped so far. -/
theorem foldl_drop_induction {s : Spec α} (h : s.registry.Owned none)
    {P : List ConstraintId → Spec α → Prop} (initial : P [] s)
    (step : ∀ done t k, P done t → t.registry.Owned none →
      (∀ c, t.registry.constraint? k = some c → c.role = .user) → P (done ++ [k]) (t.drop k))
    (ids : List ConstraintId)
    (hrole : ∀ k ∈ ids, ∀ c, s.registry.constraint? k = some c → c.role = .user) :
    (ids.foldl drop s).registry.Owned none ∧ P ids (ids.foldl drop s) := by
  suffices hall : (ids.foldl drop s).registry.Owned none ∧ P ids (ids.foldl drop s) ∧
      ∀ k c, (ids.foldl drop s).registry.constraint? k = some c →
        s.registry.constraint? k = some c from ⟨hall.1, hall.2.1⟩
  induction ids using List.reverseRecOn with
  | nil => exact ⟨h, initial, fun _ _ hk => hk⟩
  | append_singleton ids k ih =>
    obtain ⟨howned, hP, hsub⟩ := ih fun j hj => hrole j (by simp [hj])
    have hrole' : ∀ c, (ids.foldl drop s).registry.constraint? k = some c → c.role = .user :=
      fun c hc => hrole k (by simp) c (hsub k c hc)
    have hdropped := dropped_drop_of_role howned hrole'
    rw [List.foldl_append]
    exact ⟨hdropped.owned, step ids _ k hP howned hrole',
      fun j c hj => hsub j c (hdropped.others j c hj).2⟩

omit [Scalar α] [RangeScalar α] in
/-- What the constraints are that a removal of a variable takes along. -/
theorem mem_mentioning {s : Spec α} (haddressable : s.Addressable) {id : VariableId}
    {k : ConstraintId} : k ∈ s.mentioning id ↔
      ∃ c, s.registry.constraint? k = some c ∧ c.role = .user ∧ c.mentions id = true := by
  unfold mentioning
  simp only [List.mem_map, List.mem_filter, Prod.exists, mem_constraintList haddressable]
  constructor
  · rintro ⟨j, c, ⟨hj, hc⟩, rfl⟩
    exact ⟨c, hj, by simpa using hc⟩
  · rintro ⟨c, hk, hc⟩
    exact ⟨k, c, ⟨hk, by simpa using hc⟩, rfl⟩

omit [Scalar α] [RangeScalar α] in
theorem role_of_mem_mentioning {s : Spec α} (haddressable : s.Addressable) {id : VariableId}
    {k : ConstraintId} (hk : k ∈ s.mentioning id) (c : Constraint α)
    (hc : s.registry.constraint? k = some c) : c.role = .user := by
  obtain ⟨d, hd, hrole, -⟩ := (mem_mentioning haddressable).1 hk
  rwa [← Option.some.inj (hc.symm.trans hd)] at hrole

/-- **A variable of the caller is removed with the constraints that mention it.** -/
theorem owned_removeVariable {s : Spec α} (haddressable : s.Addressable)
    (h : s.registry.Owned none) {id : VariableId} (hid : s.isUserVariable id = true) :
    (((s.mentioning id).foldl drop s).dropVariable id).registry.Owned none := by
  obtain ⟨x, hx, hslack⟩ := (s.isUserVariable_iff_extent? id).1 hid
  have hfold := foldl_drop_induction h
    (P := fun done t => t.registry.extent? id = some x ∧ ∀ k c,
      t.registry.constraint? k = some c → k ∉ done ∧ s.registry.constraint? k = some c)
    ⟨hx, fun k c hk => ⟨by simp, hk⟩⟩ (fun done t k ht howned hrole => by
      have hdropped := dropped_drop_of_role howned hrole
      refine ⟨hdropped.extents id x ht.1 hslack, fun j c hj => ?_⟩
      obtain ⟨hne, hj'⟩ := hdropped.others j c hj
      obtain ⟨hdone, hs⟩ := ht.2 j c hj'
      exact ⟨by simp [hne, hdone], hs⟩)
    (s.mentioning id) fun k hk => role_of_mem_mentioning haddressable hk
  obtain ⟨howned, hextent, hothers⟩ := hfold
  rw [registry_dropVariable hextent]
  refine howned.removeVariable hextent hslack fun k c hk hrole term hterm heq => ?_
  obtain ⟨hnot, hget⟩ := hothers k c hk
  refine hnot ((mem_mentioning haddressable).2 ⟨c, hget, hrole, ?_⟩)
  exact List.any_eq_true.2 ⟨term, Constraint.mem_ownTerms_subset hterm, by simp [heq]⟩

end Spec

end ElasticLayout
