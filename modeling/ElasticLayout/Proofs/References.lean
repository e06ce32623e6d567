import ElasticLayout.Proofs.InternalParts
import ElasticLayout.Proofs.Columns
import ElasticLayout.Proofs.PlainHistory

/-!
# References are counted right

The references of a variable are counted by hand wherever a left side is stored, replaced or
removed.  After every history of calls the count is the number of live constraints that mention the
variable, so that no count is ever taken back that was not there.

* `Spec.tally` -- how often the live constraints mention a variable;
* `Spec.Counted` -- the references of every live variable are its tally;
* `Spec.Counted.place`, `Spec.Counted.withdraw`, `Spec.Counted.relink` -- the changes that count;
* `Spec.Step.counted`, `Spec.Reachable.merged` -- the invariants;
* `Spec.usedVariables_eq_columns` -- the used variables are the columns;
* `Spec.Reachable.references` -- the main result.
-/

namespace ElasticLayout

variable {α : Type}

namespace Spec

/-! ### Tallies -/

/-- How often the live constraints mention a variable. -/
def tally (s : Spec α) (id : VariableId) : Nat :=
  (s.constraintList.map fun p => occurrences p.2.left id).sum

/-- How often the constraint behind a handle mentions a variable; not at all if it is stale. -/
def mentionCount (s : Spec α) (k : ConstraintId) (id : VariableId) : Nat :=
  ((s.registry.constraint? k).map fun c => occurrences c.left id).getD 0

theorem mentionCount_of_some {s : Spec α} {k : ConstraintId} {c : Constraint α}
    (h : s.registry.constraint? k = some c) (id : VariableId) :
    s.mentionCount k id = occurrences c.left id := by
  unfold mentionCount
  rw [h]
  rfl

theorem mentionCount_of_none {s : Spec α} {k : ConstraintId}
    (h : s.registry.constraint? k = none) (id : VariableId) : s.mentionCount k id = 0 := by
  unfold mentionCount
  rw [h]
  rfl

/-- The live constraints are the one behind a handle, and the others. -/
theorem constraintList_perm {s : Spec α} (hs : s.Addressable) (k : ConstraintId) :
    s.constraintList.Perm ((s.registry.constraint? k).toList.map (Prod.mk k)
      ++ s.constraintList.filter fun p => decide (p.1 ≠ k)) := by
  have hnodup : s.constraintList.Nodup := List.Nodup.of_map _ (constraintList_nodup hs)
  refine (List.perm_ext_iff_of_nodup hnodup ?_).2 ?_
  · refine List.Nodup.append ?_ (hnodup.filter _) ?_
    · cases s.registry.constraint? k <;> simp
    · rintro ⟨j, c⟩ hleft hright
      obtain ⟨_, -, heq⟩ := List.mem_map.1 hleft
      have hne := (List.mem_filter.1 hright).2
      simp [(Prod.mk.inj heq).1] at hne
  · rintro ⟨j, c⟩
    simp only [List.mem_append, List.mem_map, List.mem_filter, mem_constraintList hs,
      Option.mem_toList, Prod.mk.injEq, decide_eq_true_eq]
    by_cases hj : j = k
    · subst hj
      simp
    · simp [hj, Ne.symm hj]

theorem tally_eq {s : Spec α} (hs : s.Addressable) (k : ConstraintId) (id : VariableId) :
    s.tally id = s.mentionCount k id
      + ((s.constraintList.filter fun p => decide (p.1 ≠ k)).map
        fun p => occurrences p.2.left id).sum := by
  unfold tally
  rw [((constraintList_perm hs k).map _).sum_eq, List.map_append, List.sum_append]
  congr 1
  unfold mentionCount
  cases s.registry.constraint? k <;> simp

/-- **How a tally changes** when the constraint behind one handle does. -/
theorem tally_add {s t : Spec α} (hs : s.Addressable) (ht : t.Addressable) {k : ConstraintId}
    (h : ∀ j, j ≠ k → t.registry.constraint? j = s.registry.constraint? j) (id : VariableId) :
    t.tally id + s.mentionCount k id = s.tally id + t.mentionCount k id := by
  have hothers : (t.constraintList.filter fun p => decide (p.1 ≠ k)).Perm
      (s.constraintList.filter fun p => decide (p.1 ≠ k)) := by
    refine (List.perm_ext_iff_of_nodup
      ((List.Nodup.of_map _ (constraintList_nodup ht)).filter _)
      ((List.Nodup.of_map _ (constraintList_nodup hs)).filter _)).2 ?_
    rintro ⟨j, c⟩
    simp only [List.mem_filter, mem_constraintList hs, mem_constraintList ht, decide_eq_true_eq]
    refine and_congr_left fun hj => ?_
    rw [h j hj]
  rw [tally_eq hs k, tally_eq ht k, (hothers.map _).sum_eq]
  omega

theorem mentionCount_le_tally {s : Spec α} (hs : s.Addressable) (k : ConstraintId)
    (id : VariableId) : s.mentionCount k id ≤ s.tally id := by
  rw [tally_eq hs k]
  exact Nat.le_add_right _ _

theorem tally_congr {s t : Spec α} (hs : s.Addressable) (ht : t.Addressable)
    (h : t.registry.constraint? = s.registry.constraint?) (id : VariableId) :
    t.tally id = s.tally id := by
  have hadd := tally_add hs ht (k := default) (fun j _ => congrFun h j) id
  have hmention : t.mentionCount default id = s.mentionCount default id := by
    unfold mentionCount
    rw [h]
  omega

/-! ### Counts -/

/-- The references of every live variable are its tally. -/
def Counted (s : Spec α) : Prop :=
  ∀ id x, s.standing? id = some x → x.references = s.tally id

namespace Counted

variable {s t : Spec α}

theorem references_eq (h : s.Counted) {id : VariableId} {v : Variable α}
    (hv : s.getVariable? id = some v) : v.references = s.tally id :=
  h id v.standing (congrArg (Option.map Variable.standing) hv)

/-- The constraint behind one handle changes, and the references with it. -/
theorem change (h : s.Counted) (hs : s.Addressable) (ht : t.Addressable) (k : ConstraintId)
    (hothers : ∀ j, j ≠ k → t.registry.constraint? j = s.registry.constraint? j)
    (hreferences : ∀ id y, t.standing? id = some y → ∃ x, s.standing? id = some x ∧
      (s.mentionCount k id ≤ x.references →
        y.references + s.mentionCount k id = x.references + t.mentionCount k id)) : t.Counted := by
  intro id y hy
  obtain ⟨x, hx, hcount⟩ := hreferences id y hy
  have hx' := h id x hx
  have hle := mentionCount_le_tally hs k id
  have hadd := tally_add hs ht hothers id
  have hy' := hcount (by omega)
  omega

/-- Nothing changes for the constraints, and no reference is counted. -/
theorem congr (h : s.Counted) (hs : s.Addressable) (ht : t.Addressable)
    (hconstraints : t.registry.constraint? = s.registry.constraint?)
    (hreferences : ∀ id y, t.standing? id = some y →
      ∃ x, s.standing? id = some x ∧ y.references = x.references) : t.Counted := by
  intro id y hy
  obtain ⟨x, hx, hxy⟩ := hreferences id y hy
  rw [hxy, h id x hx, tally_congr hs ht hconstraints]

theorem modifyVariable (h : s.Counted) (id : VariableId) {f : Variable α → Variable α}
    (hf : ∀ v, (f v).references = v.references) (ht : (s.modifyVariable id f).Addressable) :
    (s.modifyVariable id f).Counted := by
  have hs := (s.evolves_modifyVariable id f).addressable ht
  refine h.congr hs ht rfl fun v y hy => ?_
  rw [standing?_modifyVariable] at hy
  split at hy
  · rename_i hv
    obtain ⟨x, hx, rfl⟩ := Option.map_eq_some_iff.1 hy
    exact ⟨x.standing, by rw [hv]; exact congrArg (Option.map Variable.standing) hx, hf x⟩
  · exact ⟨y, hy, rfl⟩

/-- **A left side is replaced**: the references of the removed terms are taken back, and those of
the added terms are counted. -/
theorem relink (h : s.Counted) {k : ConstraintId} {c : Constraint α}
    (hc : s.registry.constraint? k = some c) {f : Constraint α → Constraint α}
    (removed added : List (Summand α))
    (hle : ∀ id, occurrences removed id ≤ occurrences c.left id)
    (hbalance : ∀ id, occurrences (f c).left id + occurrences removed id
      = occurrences c.left id + occurrences added id)
    (ht : (((s.modifyConstraint k f).release removed).retain added).Addressable) :
    (((s.modifyConstraint k f).release removed).retain added).Counted := by
  have hregistry : (((s.modifyConstraint k f).release removed).retain added).registry
      = s.registry.putConstraint k (some (f c)) := by
    rw [registry_retain, registry_release, registry_modifyConstraint, hc]
    rfl
  have hs : s.Addressable := ((s.evolves_modifyConstraint k f).trans
    ((evolves_release _ removed).trans (evolves_retain _ added))).addressable ht
  refine h.change hs ht k (fun j hj => ?_) fun id y hy => ?_
  · rw [hregistry, Registry.constraint?_putConstraint, if_neg hj]
  · rw [standing?_retain, standing?_release, Option.map_map] at hy
    obtain ⟨x, hx, rfl⟩ := Option.map_eq_some_iff.1 hy
    refine ⟨x, hx, fun hcount => ?_⟩
    have hnew : (((s.modifyConstraint k f).release removed).retain added).mentionCount k id
        = occurrences (f c).left id := by
      refine mentionCount_of_some ?_ id
      rw [hregistry, Registry.constraint?_putConstraint, if_pos rfl]
    rw [hnew, mentionCount_of_some hc] at *
    show x.references - occurrences removed id + occurrences added id + _ = _
    have hle := hle id
    have hbalance := hbalance id
    omega

/-- A constraint changes but for its left side. -/
theorem modifyConstraint (h : s.Counted) (k : ConstraintId) {f : Constraint α → Constraint α}
    (hf : ∀ c, (f c).left = c.left) (ht : (s.modifyConstraint k f).Addressable) :
    (s.modifyConstraint k f).Counted := by
  cases hc : s.registry.constraint? k with
  | some c =>
    have hrelinked := h.relink hc (f := f) [] [] (by simp) (by simp [hf]) ht
    exact hrelinked
  | none =>
    refine h.congr ((s.evolves_modifyConstraint k f).addressable ht) ht ?_
      fun id y hy => ⟨y, hy, rfl⟩
    rw [registry_modifyConstraint, hc, Option.map_none, Registry.putConstraint_self hc]

theorem place (h : s.Counted) (hs : s.Tidy) {c : Constraint α} (ht : (s.place c).2.Addressable) :
    (s.place c).2.Counted := by
  obtain ⟨hfresh, hregistry⟩ := registry_place hs ht
  refine h.change ((s.evolves_place c).addressable ht) ht (s.place c).1 (fun j hj => ?_)
    fun id y hy => ?_
  · rw [hregistry, Registry.constraint?_putConstraint, if_neg hj]
  · rw [standing?_place] at hy
    obtain ⟨x, hx, rfl⟩ := Option.map_eq_some_iff.1 hy
    refine ⟨x, hx, fun _ => ?_⟩
    rw [mentionCount_of_none hfresh, mentionCount_of_some (c := c) (by
      rw [hregistry, Registry.constraint?_putConstraint, if_pos rfl])]
    rfl

theorem withdraw (h : s.Counted) (k : ConstraintId) (ht : (s.withdraw k).Addressable) :
    (s.withdraw k).Counted := by
  have hs := (s.evolves_withdraw k).addressable ht
  cases hc : s.registry.constraint? k with
  | none =>
    rwa [withdraw_of_stale hc]
  | some c =>
    refine h.change hs ht k (fun j hj => ?_) fun id y hy => ?_
    · rw [registry_withdraw, Registry.constraint?_putConstraint, if_neg hj]
    · rw [standing?_withdraw hc] at hy
      obtain ⟨x, hx, rfl⟩ := Option.map_eq_some_iff.1 hy
      refine ⟨x, hx, fun hcount => ?_⟩
      have hnone : (s.withdraw k).mentionCount k id = 0 := by
        refine mentionCount_of_none ?_ id
        rw [registry_withdraw, Registry.constraint?_putConstraint, if_pos rfl]
      rw [hnone, mentionCount_of_some hc] at *
      show x.references - occurrences c.left id + occurrences c.left id = x.references + 0
      omega

theorem foldl_withdraw (ks : List ConstraintId) (h : s.Counted)
    (ht : (ks.foldl Spec.withdraw s).Addressable) : (ks.foldl Spec.withdraw s).Counted := by
  induction ks generalizing s with
  | nil => exact h
  | cons k ks ih =>
    have hfirst : (s.withdraw k).Addressable :=
      (Evolves.foldl_zero evolves_withdraw ks _).addressable ht
    exact ih (h.withdraw k hfirst) ht

theorem dropVariable (h : s.Counted) (id : VariableId) (ht : (s.dropVariable id).Addressable) :
    (s.dropVariable id).Counted := by
  unfold Spec.dropVariable at ht ⊢
  split
  · exact h
  · rename_i v hv
    rw [hv] at ht
    have hwithdrawn : (v.bounds.foldl Spec.withdraw s).Addressable :=
      (evolves_eraseVariable _ id.slot).addressable ht
    refine (foldl_withdraw v.bounds h hwithdrawn).congr hwithdrawn ht rfl fun w y hy => ?_
    obtain ⟨x, hx, rfl⟩ := Option.map_eq_some_iff.1 hy
    have hx : ((v.bounds.foldl Spec.withdraw s).variableStore.erase id.slot).get? w.slot
      = some x := hx
    rw [SlotStore.erase_get?, Function.update_apply] at hx
    split at hx
    · exact absurd hx (by simp)
    · exact ⟨x.standing, congrArg (Option.map Variable.standing) hx, rfl⟩

/-- A new variable is mentioned by nobody. -/
theorem insertVariable (h : s.Counted) (hs : s.Tidy)
    (hlive : ∀ k c, s.registry.constraint? k = some c → ∀ term ∈ c.left,
      (s.getVariable? term.var).isSome = true) {v : Variable α} (hv : v.references = 0)
    (ht : ({ s with variableStore := (s.variableStore.insert v).2 } : Spec α).Addressable) :
    ({ s with variableStore := (s.variableStore.insert v).2 } : Spec α).Counted := by
  have haddressable := (s.evolves_insertVariable v).addressable ht
  intro id y hy
  obtain ⟨x, hx, rfl⟩ := Option.map_eq_some_iff.1 hy
  have hx : (s.variableStore.insert v).2.get? id.slot = some x := hx
  rw [tally_congr haddressable ht rfl]
  rw [SlotStore.insert_get? hs.1 ht.1, Function.update_apply] at hx
  split at hx
  · rename_i hid
    obtain rfl := Option.some.inj hx
    have hfresh : s.getVariable? id = none := by
      show s.variableStore.get? id.slot = none
      rw [hid]
      exact SlotStore.get?_insert_fresh hs.1 ht.1
    show v.references = _
    rw [hv]
    refine (List.sum_eq_zero fun n hn => ?_).symm
    obtain ⟨⟨k, c⟩, hmem, rfl⟩ := List.mem_map.1 hn
    refine List.countP_eq_zero.2 fun term hterm heq => ?_
    have hterm' := hlive k c ((mem_constraintList haddressable).1 hmem) term hterm
    rw [beq_iff_eq.1 heq, hfresh] at hterm'
    exact absurd hterm' (by simp)
  · exact h id x.standing (congrArg (Option.map Variable.standing) hx)

/-! ### Internal constraints -/

variable [Scalar α]

theorem syncBound (h : s.Counted) (hs : s.Tidy) (id : VariableId) (existing : Option ConstraintId)
    (relation : Relation) (limit : α) (needed : Bool)
    (ht : (s.syncBound id existing relation limit needed).2.Addressable) :
    (s.syncBound id existing relation limit needed).2.Counted := by
  cases existing with
  | some bound =>
    cases needed with
    | true => exact h.modifyConstraint bound (fun _ => rfl) ht
    | false => exact h.withdraw bound ht
  | none =>
    cases needed with
    | true => exact h.place hs ht
    | false => exact h

theorem applyRange (h : s.Counted) (hs : s.Tidy) (id : VariableId) (lower upper : α)
    (ht : (s.applyRange id lower upper).Addressable) :
    (s.applyRange id lower upper).Counted := by
  cases hv : s.getVariable? id with
  | none =>
    have hsame : s.applyRange id lower upper = s := by
      unfold Spec.applyRange
      rw [hv]
    rwa [hsame]
  | some v =>
    obtain ⟨s₁, s₂, s₃, lowerBound, upperBound, hstages⟩ := exists_rangeStages hv lower upper
    have hroom₂ := hstages.room₂ ht
    have hroom₃ := hstages.room₃ ht
    have hroom₁ : s₁.Addressable := by
      refine (evolves_syncBound s₁ id v.lowerBound .ge lower
        (Variable.defaultLower < lower)).addressable ?_
      rwa [hstages.lowerEnd]
    have h₁ : s₁.Counted := by
      rw [hstages.ends] at hroom₁ ⊢
      exact h.modifyVariable id (fun _ => rfl) hroom₁
    have h₂ := h₁.syncBound (hstages.tidy₁ hs) id v.lowerBound .ge lower
      (Variable.defaultLower < lower) (by rwa [hstages.lowerEnd])
    rw [hstages.lowerEnd] at h₂
    have h₃ := h₂.syncBound (hstages.tidy₂ hs) id v.upperBound .le upper
      (upper < Variable.defaultUpper) (by rwa [hstages.upperEnd])
    rw [hstages.upperEnd] at h₃
    rw [hstages.links] at ht ⊢
    exact h₃.modifyVariable id (fun _ => rfl) ht

end Counted

end Spec

/-- A live constraint mentions live variables only. -/
theorem Registry.Owned.mentioned_live [Scalar α] {r : Registry α} {p : Option ConstraintId}
    (h : r.Owned p) {k : ConstraintId} {c : Constraint α} (hc : r.constraint? k = some c)
    {term : Summand α} (hterm : term ∈ c.left) : ∃ x, r.extent? term.var = some x := by
  cases hrole : c.role with
  | user =>
    cases he : c.elastic with
    | none =>
      obtain ⟨x, hx, -⟩ := h.own k c hc hrole term (by rwa [Constraint.ownTerms_of_rigid he])
      exact ⟨x, hx⟩
    | some e =>
      have howns := h.owns k c e hc he
      rw [howns.left] at hterm
      rcases List.mem_append.1 hterm with hown | hslack
      · obtain ⟨x, hx, -⟩ := h.own k c hc hrole term hown
        exact ⟨x, hx⟩
      · obtain ⟨x, hx, -⟩ := howns.slack
        rw [List.mem_singleton.1 hslack]
        exact ⟨x, hx⟩
  | bound v =>
    obtain ⟨relation, limit, hbound⟩ := h.isBound_of_role hc hrole
    obtain ⟨x, hx, -⟩ := h.bound k c v hc hrole
    rw [hbound.left] at hterm
    rw [List.mem_singleton.1 hterm]
    exact ⟨x, hx⟩
  | slackPenalty j =>
    obtain ⟨d, e, -, -, -, howns, hpenalty⟩ := h.isPenaltyOf_of_role hc hrole
    obtain ⟨x, hx, -⟩ := howns.slack
    rw [hpenalty.left] at hterm
    rw [List.mem_singleton.1 hterm]
    exact ⟨x, hx⟩

namespace Spec

theorem isSome_of_mentioned [Scalar α] {s : Spec α} {p : Option ConstraintId}
    (h : s.registry.Owned p) {k : ConstraintId} {c : Constraint α}
    (hc : s.registry.constraint? k = some c) {term : Summand α} (hterm : term ∈ c.left) :
    (s.getVariable? term.var).isSome = true := by
  obtain ⟨x, hx⟩ := h.mentioned_live hc hterm
  obtain ⟨v, hv, -⟩ := getVariable?_of_extent? hx
  exact Option.isSome_iff_exists.2 ⟨v, hv⟩

namespace Counted

variable [Scalar α] {s : Spec α}

theorem attachSlack [RangeScalar α] (h : s.Counted) (hs : s.Tidy) {p : Option ConstraintId}
    (howned : s.registry.Owned p) {id : ConstraintId} {c : Constraint α}
    (hc : s.registry.constraint? id = some c) (a : α)
    (ht : (s.attachSlack id c a).Addressable) : (s.attachSlack id c a).Counted := by
  obtain ⟨s₁, s₂, s₃, s₄, slack, penalty, hstages⟩ := exists_slackStages s id c a
  have hroom₁ := hstages.room₁ ht
  have hroom₂ := hstages.room₂ ht
  have hroom₃ := hstages.room₃ ht
  have hroom₄ := hstages.room₄ ht
  have h₁ : s₁.Counted := by
    rw [hstages.inserted] at hroom₁ ⊢
    exact h.insertVariable hs (fun k c hc term => isSome_of_mentioned howned hc) rfl hroom₁
  have h₂ : s₂.Counted := by
    rw [hstages.ranged] at hroom₂ ⊢
    exact h₁.applyRange (hstages.tidy₁ hs) slack 0 Variable.slackUpper hroom₂
  -- The slack is mentioned once more, and counted once more.
  have h₃ : s₃.Counted := by
    obtain ⟨-, b, bound, hfresh, -, -, hregistry⟩ := hstages.registry₂ hs hroom₂
    have hc₂ : s₂.registry.constraint? id = some c := by
      rw [hregistry]
      grind
    rw [hstages.extended] at hroom₃ ⊢
    refine h₂.relink hc₂ [] _ (by simp) (fun v => ?_) hroom₃
    unfold occurrences
    rw [List.countP_append]
    rfl
  have h₄ := h₃.place (hstages.tidy₃ hs) (c := penaltyOf id c slack)
    (by rwa [hstages.penalized])
  rw [hstages.penalized] at h₄
  rw [hstages.linked] at ht ⊢
  exact h₄.modifyConstraint id (fun _ => rfl) ht

theorem attach [RangeScalar α] (h : s.Counted) (hs : s.Tidy) {p : Option ConstraintId}
    (howned : s.registry.Owned p) (id : ConstraintId) (ht : (s.attach id).Addressable) :
    (s.attach id).Counted := by
  obtain hsettled | ⟨c, a, hc, hrigid, hsoft, ha⟩ := s.settled_or_pending id
  · rwa [attach_of_settled hsettled]
  · rw [attach_of_softInequality hc hrigid hsoft ha] at ht ⊢
    exact h.attachSlack hs howned hc a ht

theorem register [RangeScalar α] (h : s.Counted) (hs : s.Tidy) {c : Constraint α}
    (howned : (s.place c).2.registry.Owned (some (s.place c).1))
    (ht : (s.register c).2.Addressable) : (s.register c).2.Counted :=
  (h.place hs ((evolves_attach _ _).addressable ht)).attach ((s.evolves_place c).tidy hs) howned _
    ht

omit [Scalar α] in
theorem detach (h : s.Counted) (id : ConstraintId) (ht : (s.detach id).Addressable) :
    (s.detach id).Counted := by
  obtain hrigid | ⟨c, e, hc, he⟩ := s.rigid_or_elastic id
  · rwa [detach_of_rigid hrigid]
  · rw [detach_eq hc he] at ht ⊢
    have hwithdrawn := (evolves_dropVariable _ e.slack).addressable ht
    have hreleased := (evolves_withdraw _ e.penalty).addressable hwithdrawn
    refine ((h.relink hc _ [] (fun v => ?_) (fun v => ?_) hreleased).withdraw e.penalty
      hwithdrawn).dropVariable e.slack ht
    · exact List.filter_sublist.countP_le
    · have hsplit := c.left.countP_eq_countP_filter_add (·.var == v) (·.var == e.slack)
      show occurrences (c.left.filter fun term => !(term.var == e.slack)) v + _ = _ + 0
      unfold occurrences
      omega

omit [Scalar α] in
theorem drop (h : s.Counted) (id : ConstraintId) (ht : (s.drop id).Addressable) :
    (s.drop id).Counted :=
  (h.detach id ((evolves_withdraw _ id).addressable ht)).withdraw id ht

theorem mutate [RangeScalar α] (h : s.Counted) (hs : s.Tidy) (howned : s.registry.Owned none)
    {id : ConstraintId} (hid : s.isUserConstraint id = true)
    {change : Constraint α → Constraint α} (hchange : s.IsUserChange change)
    (ht : (s.mutate id change).Addressable) : (s.mutate id change).Counted := by
  obtain ⟨c, hc, hrole⟩ := (s.isUserConstraint_iff id).1 hid
  have hget := (detached_detach howned hc hrole).constraint
  obtain ⟨t, hmutate, hrelinked, htidy, htowned, -⟩ :=
    mutate_eq_attach hs howned hc hrole hchange
  rw [hmutate] at ht ⊢
  have htroom := (evolves_attach t id).addressable ht
  have hdetached : (s.detach id).Addressable := by
    rw [hrelinked] at htroom
    exact ((evolves_modifyConstraint _ id change).trans ((evolves_release _ _).trans
      (evolves_retain _ _))).addressable htroom
  refine Counted.attach ?_ htidy htowned id ht
  rw [hrelinked] at htroom ⊢
  exact (h.detach id hdetached).relink hget _ _ (fun _ => le_rfl) (fun _ => Nat.add_comm _ _) htroom

theorem removeVariable [RangeScalar α] (h : s.Counted) (howned : s.registry.Owned none)
    (id : VariableId) (ht : (((s.mentioning id).foldl Spec.drop s).dropVariable id).Addressable) :
    (((s.mentioning id).foldl Spec.drop s).dropVariable id).Counted := by
  have hdropped := (evolves_dropVariable _ id).addressable ht
  have haddressable := (Evolves.foldl_zero evolves_drop (s.mentioning id) s).addressable hdropped
  have hfold := foldl_drop_induction howned (P := fun _ t => t.Addressable → t.Counted)
    (fun _ => h) (fun _ t k ih _ _ htroom => (ih ((evolves_drop t k).addressable htroom)).drop k
      htroom) (s.mentioning id) fun k hk => role_of_mem_mentioning haddressable hk
  exact (hfold.2 hdropped).dropVariable id ht

end Counted

variable [Scalar α] [RangeScalar α]

/-- **Every step keeps the references right.** -/
theorem Step.counted {s t : Spec α} (hs : s.Tidy) (howned : s.registry.Owned none)
    (h : s.Counted) (hstep : s.Step t) (ht : t.Addressable) : t.Counted := by
  cases hstep with
  | stay => exact h
  | addVariable label =>
    exact h.insertVariable hs (fun k c hc term => isSome_of_mentioned howned hc) rfl ht
  | removeVariable id hid => exact h.removeVariable howned id ht
  | nameVariable id label => exact h.modifyVariable id (fun _ => rfl) ht
  | setRange id lower upper => exact h.applyRange hs id lower upper ht
  | addConstraint left relation right above below hleft =>
    exact h.register hs (owned_place hs howned rfl rfl rfl
      (isUserVariable_of_mem_mergeSummands hleft) ((evolves_attach _ _).addressable ht)) ht
  | removeConstraint id hid => exact h.drop id ht
  | setLeft id left hid hleft =>
    exact h.mutate hs howned hid (isUserChange_setLeft hleft) ht
  | setRelation id relation hid =>
    exact h.mutate hs howned hid ⟨fun _ => rfl, fun _ => rfl, fun _ => rfl, fun _ _ => .inl⟩ ht
  | setRight id right hid =>
    exact h.mutate hs howned hid ⟨fun _ => rfl, fun _ => rfl, fun _ => rfl, fun _ _ => .inl⟩ ht
  | setPenalties id above below hid =>
    exact h.mutate hs howned hid ⟨fun _ => rfl, fun _ => rfl, fun _ => rfl, fun _ _ => .inl⟩ ht
  | nameConstraint id label => exact h.modifyConstraint id (fun _ => rfl) ht
  | solve =>
    refine h.congr (s.evolves_solve.addressable ht) ht (by rw [registry_solve]) fun id y hy => ?_
    exact ⟨y, by rwa [standing?_solve] at hy, rfl⟩
  | query width height target unbounded hquery =>
    have hsame := sameButValues_sizeQuery hs howned hquery ht
    refine h.congr ((evolves_sizeQuery hquery).addressable ht) ht hsame.constraints
      fun id y hy => ?_
    exact ⟨y, by rwa [hsame.standings] at hy, rfl⟩

theorem Reachable.counted {s : Spec α} (h : s.Reachable) : s.Counted := by
  refine (h.owned_induction (P := Counted) (fun options id x hx => ?_)
    fun s t hs howned hcounted hstep ht => hstep.counted hs howned hcounted ht).2.2
  exact absurd hx (by simp [standing?, getVariable?, SlotStore.get?])

end Spec

/-! ### Left sides name a variable once -/

namespace PlainModel

/-- No left side in the table names a variable twice. -/
def Merged (m : PlainModel α) : Prop :=
  ∀ k c, m.constraintAt? k = some c → (c.left.map (·.var)).Nodup

end PlainModel

namespace Spec

variable [Scalar α] [RangeScalar α]

theorem Reachable.merged {s : Spec α} (h : s.Reachable) : s.plain.Merged :=
  h.plain_all {
    added := fun left _ _ _ _ _ _ _ => mergeSummands_nodup left
    setLeft := fun _ left _ => mergeSummands_nodup left
    setRelation := fun _ _ hp => hp
    setRight := fun _ _ _ hp => hp
    setPenalties := fun _ _ _ _ _ hp => hp
    named := fun _ _ hp => hp }

omit [RangeScalar α] in
/-- No left side names a variable twice, that of an internal constraint or with a slack included. -/
theorem left_nodup {s : Spec α} (howned : s.registry.Owned none) (h : s.plain.Merged)
    {k : ConstraintId} {c : Constraint α} (hc : s.registry.constraint? k = some c) :
    (c.left.map (·.var)).Nodup := by
  by_cases hrole : c.role = .user
  · have hown : (c.ownTerms.map (·.var)).Nodup :=
      h k c.plain (constraintAt?_eq_some.2 ⟨c, hc, hrole, rfl⟩)
    cases he : c.elastic with
    | none => rwa [Constraint.ownTerms_of_rigid he] at hown
    | some e =>
      rw [(howned.owns k c e hc he).left, List.map_append, List.nodup_append]
      refine ⟨hown, List.nodup_singleton _, fun v hv w hw heq => ?_⟩
      obtain ⟨term, hterm, rfl⟩ := List.mem_map.1 hv
      rw [List.map_singleton, List.mem_singleton] at hw
      exact Constraint.ne_slack_of_mem_ownTerms he hterm (heq.trans hw)
  · obtain ⟨v, hleft⟩ := (howned.isInternal_of_role hc hrole).left
    rw [hleft]
    exact List.nodup_singleton _

/-! ### Used variables -/

omit [Scalar α] [RangeScalar α] in
/-- A left side that names no variable twice mentions a variable once or not at all. -/
theorem occurrences_of_nodup {left : List (Summand α)} (h : (left.map (·.var)).Nodup)
    (id : VariableId) : occurrences left id = if left.any (·.var == id) then 1 else 0 := by
  have hcount : occurrences left id = (left.map (·.var)).count id := by
    unfold occurrences
    rw [List.count, List.countP_map]
    rfl
  rw [hcount, h.count]
  refine if_congr ?_ rfl rfl
  simp

omit [Scalar α] [RangeScalar α] in
/-- The tally of a variable is the number of live constraints that mention it. -/
theorem tally_eq_countP {s : Spec α} (hs : s.Addressable)
    (h : ∀ k c, s.registry.constraint? k = some c → (c.left.map (·.var)).Nodup) (id : VariableId) :
    s.tally id = s.constraintList.countP fun p => p.2.mentions id := by
  suffices hall : ∀ l : List (ConstraintId × Constraint α),
      (∀ p ∈ l, (p.2.left.map (·.var)).Nodup) →
      (l.map fun p => occurrences p.2.left id).sum = l.countP fun p => p.2.mentions id from
    hall s.constraintList fun p hp => h p.1 p.2 ((mem_constraintList hs).1 hp)
  intro l
  induction l with
  | nil => exact fun _ => rfl
  | cons p l ih =>
    intro hl
    rw [List.map_cons, List.sum_cons, List.countP_cons,
      ih fun q hq => hl q (List.mem_cons_of_mem _ hq),
      occurrences_of_nodup (hl p List.mem_cons_self), Nat.add_comm]
    rfl

omit [Scalar α] [RangeScalar α] in
/-- A tally is positive if and only if a live constraint mentions the variable. -/
theorem tally_pos_iff {s : Spec α} (hs : s.Addressable) {id : VariableId} :
    0 < s.tally id ↔ ∃ k c, s.registry.constraint? k = some c ∧ ∃ term ∈ c.left, term.var = id := by
  unfold tally occurrences
  rw [Nat.pos_iff_ne_zero, ne_eq, List.sum_eq_zero_iff]
  simp [mem_constraintList hs, List.countP_eq_zero]

omit [RangeScalar α] in
/-- **The used variables are the columns**: no constraint is suspended between two calls, so that
each one that mentions a variable takes part. -/
theorem usedVariables_eq_columns {s : Spec α} (hs : s.Addressable)
    (howned : s.registry.Owned none) (hcounted : s.Counted) : s.usedVariables = s.columns := by
  refine eq_of_pairwise_precedes VariableId.slot ?_ s.columns_pairwise fun id => ?_
  · unfold usedVariables variableList
    rw [List.pairwise_map]
    refine List.Pairwise.filter _ ?_
    rw [List.pairwise_map]
    exact (SlotStore.toList_pairwise hs.1).imp fun {a b} hlt =>
      Slot.precedes_iff.2 (.inl hlt)
  · have hused : id ∈ s.usedVariables ↔
        ∃ v, s.getVariable? id = some v ∧ 0 < v.references := by
      unfold usedVariables
      simp [mem_variableList hs, Variable.isUsed]
    rw [hused, mem_columns]
    constructor
    · rintro ⟨v, hv, hpos⟩
      rw [hcounted.references_eq hv] at hpos
      obtain ⟨k, c, hc, term, hterm, hid⟩ := (tally_pos_iff hs).1 hpos
      exact ⟨c, (mem_participants howned hs).2 ⟨k, hc⟩, term, hterm, hid⟩
    · rintro ⟨c, hc, term, hterm, rfl⟩
      obtain ⟨k, hk⟩ := (mem_participants howned hs).1 hc
      obtain ⟨v, hv⟩ := Option.isSome_iff_exists.1 (isSome_of_mentioned howned hk hterm)
      refine ⟨v, hv, ?_⟩
      rw [hcounted.references_eq hv]
      exact (tally_pos_iff hs).2 ⟨k, c, hk, term, hterm, rfl⟩

/-- **References are counted right**, after every history of calls.  Left sides name live variables
only, each of them once; every live variable has as many references as there are live constraints
that mention it, so that those of a mentioned variable are positive when they are to be taken back;
and the used variables are the columns of the problem. -/
theorem Reachable.references {s : Spec α} (hs : s.Reachable) :
    (∀ k c, s.getConstraint? k = some c → (c.left.map (·.var)).Nodup ∧
      ∀ term ∈ c.left, ∃ v, s.getVariable? term.var = some v ∧ 0 < v.references) ∧
    (∀ id v, s.getVariable? id = some v →
      v.references = s.constraintList.countP fun p => p.2.mentions id) ∧
    s.usedVariables = s.columns := by
  obtain ⟨htidy, howned⟩ := hs.tidy_owned
  have hnodup : ∀ k c, s.registry.constraint? k = some c → (c.left.map (·.var)).Nodup :=
    fun k c hc => left_nodup howned hs.merged hc
  have hcount : ∀ id v, s.getVariable? id = some v →
      v.references = s.constraintList.countP fun p => p.2.mentions id := by
    intro id v hv
    rw [← tally_eq_countP hs.1 hnodup]
    exact hs.counted.references_eq hv
  refine ⟨fun k c hc => ⟨hnodup k c hc, fun term hterm => ?_⟩, hcount,
    usedVariables_eq_columns hs.1 howned hs.counted⟩
  obtain ⟨v, hv⟩ := Option.isSome_iff_exists.1 (isSome_of_mentioned howned hc hterm)
  refine ⟨v, hv, ?_⟩
  rw [hcount _ v hv, List.countP_pos_iff]
  exact ⟨(k, c), (mem_constraintList hs.1).2 hc, List.any_eq_true.2 ⟨term, hterm, by simp⟩⟩

/-- A variable between 0 and 50 in a soft and a hard constraint: four constraints mention it, the
slack is mentioned twice, and both have a column. -/
theorem references_of_soft_le :
    let s : Spec Float := ({ options := .default } : Spec Float).run [.addVariable none,
      .setRange ⟨⟨0, 0⟩⟩ 0 50, .addConstraint [1, 2] [⟨⟨0, 0⟩⟩, ⟨⟨0, 0⟩⟩] .le 100 4 0,
      .addConstraint [1] [⟨⟨0, 0⟩⟩] .ge 10 0 0]
    s.Reachable ∧
    (∃ c, s.getConstraint? ⟨⟨2, 0⟩⟩ = some c ∧ c.left.map (·.var) = [⟨⟨0, 0⟩⟩, ⟨⟨1, 0⟩⟩] ∧
      (c.left.map (·.var)).Nodup) ∧
    (∃ v, s.getVariable? ⟨⟨0, 0⟩⟩ = some v ∧ v.references = 4 ∧
      v.references = s.constraintList.countP fun p => p.2.mentions ⟨⟨0, 0⟩⟩) ∧
    s.usedVariables = [⟨⟨0, 0⟩⟩, ⟨⟨1, 0⟩⟩] ∧ s.usedVariables = s.columns := by
  intro s
  have hs : s.Reachable := reachable_run _ (by decide +kernel)
  obtain ⟨hleft, hcount, hcolumns⟩ := hs.references
  have hsoft : ∃ c, s.getConstraint? ⟨⟨2, 0⟩⟩ = some c ∧
      decide (c.left.map (·.var) = [⟨⟨0, 0⟩⟩, ⟨⟨1, 0⟩⟩]) = true :=
    (Option.any_eq_true _ _).1 (by decide +kernel)
  have hvar : ∃ v, s.getVariable? ⟨⟨0, 0⟩⟩ = some v ∧ decide (v.references = 4) = true :=
    (Option.any_eq_true _ _).1 (by decide +kernel)
  obtain ⟨c, hc, hvars⟩ := hsoft
  obtain ⟨v, hv, hfour⟩ := hvar
  exact ⟨hs, ⟨c, hc, of_decide_eq_true hvars, (hleft _ c hc).1⟩,
    ⟨v, hv, of_decide_eq_true hfour, hcount _ v hv⟩, by decide +kernel, hcolumns⟩

end Spec

end ElasticLayout
