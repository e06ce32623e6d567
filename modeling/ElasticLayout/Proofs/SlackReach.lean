import ElasticLayout.Proofs.Standing

/-!
# How far a slack reaches

Giving a slack to a constraint, and taking it back, writes to one variable only, the slack itself.
The other variables keep all they have, the reference counts included, and so do the options and the
outcome of the last solve.

* `Spec.getVariable?_release_retain` -- references are counted, and taken back;
* `Spec.OnlyTouches` -- no variable but one differs;
* `Spec.onlyTouches_retain` ... `Spec.onlyTouches_withdraw` -- changes that mention no other
  variable;
* `Spec.onlyTouches_attachSlack`, `Spec.onlyTouches_detach` -- the main results.
-/

namespace ElasticLayout

variable {α : Type}

namespace Spec

/-! ### Reference counts -/

/-- The same change for each variable of a left side, one summand after the other. -/
theorem getVariable?_foldl (f : Variable α → Variable α) (left : List (Summand α)) (s : Spec α)
    (id : VariableId) : (left.foldl (fun s term => s.modifyVariable term.var f) s).getVariable? id
      = (s.getVariable? id).map f^[occurrences left id] := by
  induction left generalizing s with
  | nil => exact Option.map_id'.symm
  | cons term left ih =>
    have hfirst : (s.modifyVariable term.var f).getVariable? id
        = (s.getVariable? id).map f^[if id = term.var then 1 else 0] := by
      rw [getVariable?_modifyVariable]
      split
      · rename_i hid
        rw [hid]
        rfl
      · exact Option.map_id'.symm
    rw [List.foldl_cons, ih, hfirst, Option.map_map, occurrences_cons, Function.iterate_add]

/-- References that are counted are taken back. -/
theorem getVariable?_release_retain (left : List (Summand α)) {s t : Spec α} {id : VariableId}
    (h : t.getVariable? id = (s.retain left).getVariable? id) :
    (t.release left).getVariable? id = s.getVariable? id := by
  unfold release
  unfold retain at h
  rw [getVariable?_foldl, h, getVariable?_foldl, Option.map_map]
  have hround : Function.LeftInverse
      (fun v : Variable α => { v with references := v.references - 1 })
      (fun v : Variable α => { v with references := v.references + 1 }) := fun _ => rfl
  rw [(hround.iterate _).comp_eq_id]
  exact Option.map_id'

/-! ### One variable -/

/-- No variable differs but this one, and neither do the options and the outcome of the last
solve. -/
structure OnlyTouches (v : VariableId) (s t : Spec α) : Prop where
  spared : ∀ id, id ≠ v → t.getVariable? id = s.getVariable? id
  options : t.options = s.options
  result : t.result = s.result

namespace OnlyTouches

variable {v : VariableId} {s t u : Spec α}

theorem refl (s : Spec α) : OnlyTouches v s s := ⟨fun _ _ => rfl, rfl, rfl⟩

theorem trans (h : OnlyTouches v s t) (h' : OnlyTouches v t u) : OnlyTouches v s u :=
  ⟨fun id hid => (h'.spared id hid).trans (h.spared id hid), h'.options.trans h.options,
    h'.result.trans h.result⟩

/-- Steps that touch one variable, one after the other. -/
theorem foldl {β : Type} {f : Spec α → β → Spec α} {bs : List β}
    (h : ∀ s, ∀ b ∈ bs, OnlyTouches v s (f s b)) (s : Spec α) : OnlyTouches v s (bs.foldl f s) := by
  induction bs generalizing s with
  | nil => exact .refl s
  | cons b bs ih =>
    exact (h s b List.mem_cons_self).trans
      (ih (fun s b hb => h s b (List.mem_cons_of_mem _ hb)) (f s b))

end OnlyTouches

theorem onlyTouches_modifyVariable (s : Spec α) (v : VariableId) (f : Variable α → Variable α) :
    OnlyTouches v s (s.modifyVariable v f) :=
  ⟨fun id hid => by rw [getVariable?_modifyVariable, if_neg hid], rfl, rfl⟩

theorem onlyTouches_modifyConstraint (v : VariableId) (s : Spec α) (k : ConstraintId)
    (f : Constraint α → Constraint α) : OnlyTouches v s (s.modifyConstraint k f) :=
  ⟨fun _ _ => rfl, rfl, rfl⟩

theorem onlyTouches_insertVariable {s : Spec α} (h : s.Tidy) {x : Variable α}
    (hroom : (s.variableStore.insert x).2.Addressable) :
    OnlyTouches ⟨(s.variableStore.insert x).1⟩ s
      { s with variableStore := (s.variableStore.insert x).2 } := by
  refine ⟨fun id hid => ?_, rfl, rfl⟩
  show (s.variableStore.insert x).2.get? id.slot = s.variableStore.get? id.slot
  rw [SlotStore.insert_get? h.1 hroom, Function.update_of_ne]
  exact fun hslot => hid (VariableId.slot_inj.1 hslot)

theorem onlyTouches_eraseVariable (s : Spec α) (v : VariableId) :
    OnlyTouches v s { s with variableStore := s.variableStore.erase v.slot } := by
  refine ⟨fun id hid => ?_, rfl, rfl⟩
  show (s.variableStore.erase v.slot).get? id.slot = s.variableStore.get? id.slot
  rw [SlotStore.erase_get?, Function.update_of_ne]
  exact fun hslot => hid (VariableId.slot_inj.1 hslot)

/-- A left side mentions no other variable. -/
def OnlyMentions (v : VariableId) (left : List (Summand α)) : Prop := ∀ term ∈ left, term.var = v

theorem onlyMentions_singleton (v : VariableId) (a : α) : OnlyMentions v [⟨a, v⟩] :=
  fun _ hterm => congrArg Summand.var (List.mem_singleton.1 hterm)

theorem onlyMentions_fresh [Scalar α] (v : VariableId) (relation : Relation)
    (right above below : α) (role : Role) :
    OnlyMentions v (Constraint.fresh [⟨1, v⟩] relation right above below role).left :=
  onlyMentions_singleton v 1

theorem onlyTouches_retain (s : Spec α) {v : VariableId} {left : List (Summand α)}
    (h : OnlyMentions v left) : OnlyTouches v s (s.retain left) :=
  .foldl (fun s term hterm => h term hterm ▸ s.onlyTouches_modifyVariable _ _) s

theorem onlyTouches_release (s : Spec α) {v : VariableId} {left : List (Summand α)}
    (h : OnlyMentions v left) : OnlyTouches v s (s.release left) :=
  .foldl (fun s term hterm => h term hterm ▸ s.onlyTouches_modifyVariable _ _) s

theorem onlyTouches_place (s : Spec α) {v : VariableId} {c : Constraint α}
    (h : OnlyMentions v c.left) : OnlyTouches v s (s.place c).2 :=
  (s.onlyTouches_retain h).trans ⟨fun _ _ => rfl, rfl, rfl⟩

theorem onlyTouches_withdraw (s : Spec α) {v : VariableId} {k : ConstraintId}
    (h : ∀ c, s.getConstraint? k = some c → OnlyMentions v c.left) :
    OnlyTouches v s (s.withdraw k) := by
  unfold withdraw
  split
  · exact .refl s
  · rename_i c hc
    have herased : OnlyTouches v s { s with constraintStore := s.constraintStore.erase k.slot } :=
      ⟨fun _ _ => rfl, rfl, rfl⟩
    exact herased.trans (onlyTouches_release _ (h c hc))

/-! ### Giving a slack -/

variable [Scalar α]

/-- A new bound constraint mentions its variable only. -/
theorem onlyTouches_syncBound (s : Spec α) (v : VariableId) (relation : Relation) (limit : α)
    (needed : Bool) : OnlyTouches v s (s.syncBound v none relation limit needed).2 := by
  unfold syncBound
  cases needed with
  | true => exact s.onlyTouches_place (onlyMentions_fresh v relation limit 0 0 (.bound v))
  | false => exact .refl s

/-- The range of a variable without bound constraints. -/
theorem onlyTouches_applyRange {s : Spec α} {v : VariableId} {x : Variable α}
    (hx : s.getVariable? v = some x) (hlower : x.lowerBound = none) (hupper : x.upperBound = none)
    (lower upper : α) : OnlyTouches v s (s.applyRange v lower upper) := by
  unfold applyRange
  rw [hx]
  dsimp only
  rw [hlower, hupper]
  exact (((s.onlyTouches_modifyVariable v _).trans (onlyTouches_syncBound _ v .ge lower _)).trans
    (onlyTouches_syncBound _ v .le upper _)).trans (onlyTouches_modifyVariable _ v _)

/-- **Nothing but the new slack is written to.** -/
theorem onlyTouches_attachSlack {s : Spec α} (h : s.Tidy) {id : ConstraintId} {c : Constraint α}
    {a : α} (hroom : (s.attachSlack id c a).Addressable) :
    OnlyTouches ⟨(s.variableStore.insert (Variable.fresh none true : Variable α)).1⟩ s
      (s.attachSlack id c a) := by
  obtain ⟨s₁, s₂, s₃, s₄, slack, penalty, hstages⟩ := exists_slackStages s id c a
  have hroom₁ := (hstages.room₁ hroom).1
  rw [hstages.inserted] at hroom₁
  rw [← hstages.handle]
  have hinserted : OnlyTouches slack s s₁ := by
    rw [hstages.handle, hstages.inserted]
    exact onlyTouches_insertVariable h hroom₁
  have hfresh : s₁.getVariable? slack = some (Variable.fresh none true) := by
    rw [hstages.handle, hstages.inserted]
    show (s.variableStore.insert _).2.get? _ = _
    rw [SlotStore.insert_get? h.1 hroom₁, Function.update_self]
  have hranged : OnlyTouches slack s₁ s₂ :=
    hstages.ranged ▸ onlyTouches_applyRange hfresh rfl rfl 0 Variable.slackUpper
  have hextended : OnlyTouches slack s₂ s₃ :=
    hstages.extended ▸ (onlyTouches_modifyConstraint slack s₂ id _).trans
      (onlyTouches_retain _ (onlyMentions_singleton slack a))
  have hpenalized : OnlyTouches slack s₃ s₄ := by
    have hplace := s₃.onlyTouches_place (c := penaltyOf id c slack)
      (onlyMentions_fresh slack .eq 0 c.penaltyAbove c.penaltyBelow (.slackPenalty id))
    rwa [hstages.penalized] at hplace
  rw [hstages.linked]
  exact (((hinserted.trans hranged).trans hextended).trans hpenalized).trans
    (onlyTouches_modifyConstraint slack s₄ id _)

/-! ### Taking a slack back -/

omit [Scalar α] in
/-- A variable goes with bound constraints that mention nothing else. -/
theorem onlyTouches_dropVariable {s : Spec α} {v : VariableId}
    (h : ∀ x, s.getVariable? v = some x → ∀ k ∈ x.bounds, ∀ c, s.getConstraint? k = some c →
      OnlyMentions v c.left) : OnlyTouches v s (s.dropVariable v) := by
  unfold dropVariable
  split
  · exact .refl s
  · rename_i x hx
    have hbounds : ∀ (ks : List ConstraintId) (t : Spec α), (∀ k ∈ ks, ∀ c,
        t.getConstraint? k = some c → OnlyMentions v c.left) →
          OnlyTouches v t (ks.foldl withdraw t) := by
      intro ks
      induction ks with
      | nil => exact fun t _ => .refl t
      | cons k ks ih =>
        intro t ht
        refine (t.onlyTouches_withdraw (ht k List.mem_cons_self)).trans (ih _ fun j hj c hc => ?_)
        rw [← registry_constraint?, registry_withdraw, Registry.constraint?_putConstraint] at hc
        split at hc
        · exact absurd hc (by simp)
        · exact ht j (List.mem_cons_of_mem _ hj) c hc
    exact (hbounds x.bounds s (h x hx)).trans (onlyTouches_eraseVariable _ v)

/-- **Nothing but the slack is written to** when it is taken back. -/
theorem onlyTouches_detach [RangeScalar α] {s : Spec α} (h : s.registry.Owned none)
    {id : ConstraintId} {c : Constraint α} {e : Elastic α} (hc : s.getConstraint? id = some c)
    (he : c.elastic = some e) : OnlyTouches e.slack s (s.detach id) := by
  obtain ⟨b, g⟩ := slackGiven_detach h hc he
  obtain ⟨hbid, hpid, hbp⟩ := g.distinct
  obtain ⟨s₁, s₂, hstages⟩ := exists_detachStages hc he
  have hreleased : OnlyTouches e.slack s s₁ := by
    rw [hstages.released]
    refine (onlyTouches_modifyConstraint e.slack s id _).trans (onlyTouches_release _ ?_)
    exact fun term hterm => by simpa using (List.mem_filter.1 hterm).2
  have hwithdrawn : OnlyTouches e.slack s₁ s₂ := by
    rw [hstages.withdrawn]
    refine s₁.onlyTouches_withdraw fun q hq => ?_
    obtain ⟨q', hq', hpenalty, -⟩ := g.penalty
    obtain rfl := Option.some.inj (hq'.symm.trans ((hstages.constraint?₁ hpid).symm.trans hq))
    rw [hpenalty.left]
    exact onlyMentions_singleton e.slack 1
  rw [hstages.dropped]
  refine (hreleased.trans hwithdrawn).trans (onlyTouches_dropVariable fun x hx k hk d hd => ?_)
  have hextent := (registry_extent?_eq_some hx).symm.trans
    ((hstages.extent?₂ e.slack).trans g.slack)
  have hk : k ∈ x.extent.bounds := hk
  rw [Option.some.inj hextent, Extent.mem_bounds] at hk
  obtain rfl : k = b := by simpa [eq_comm] using hk
  obtain ⟨q, hq, hbound, -⟩ := g.bound
  obtain rfl := Option.some.inj (hq.symm.trans ((hstages.constraint?₂ hbid hbp).symm.trans hd))
  rw [hbound.left]
  exact onlyMentions_singleton e.slack 1

end Spec

end ElasticLayout
