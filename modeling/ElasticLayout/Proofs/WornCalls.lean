import ElasticLayout.Proofs.WornQueries

/-!
# Calls of worn specifications

Every call does to a worn copy of a specification what it does to the specification, and gives the
same answer, if it names the handles after the wear.

* `Operation.worn`, `SpecError.worn`, `Reply.worn` -- calls and answers after the wear;
* `wornOutcome` -- the outcome of a call that may be rejected, after the wear;
* `Spec.addConstraint_worn`, `Spec.sizeQuery_worn` and others -- the calls that may be rejected;
* `Spec.perform_worn`, `Spec.Reachable.run_worn` -- the step and the run;
* `Spec.Reachable.solvedBy?_worn` -- the problems of later calls are the same.
-/

namespace ElasticLayout

variable {α : Type}

/-! ### Calls and answers after the wear -/

/-- A call, with handles after the wear. -/
def Operation.worn (w : Wear) : Operation α → Operation α
  | .addVariable label => .addVariable label
  | .removeVariable id => .removeVariable (id.worn w)
  | .setVariableLabel id label => .setVariableLabel (id.worn w) label
  | .setRange id lower upper => .setRange (id.worn w) lower upper
  | .setLower id lower => .setLower (id.worn w) lower
  | .setUpper id upper => .setUpper (id.worn w) upper
  | .addConstraint coefficients ids relation right above below =>
    .addConstraint coefficients (ids.map (·.worn w)) relation right above below
  | .relate relation a b above below => .relate relation (a.worn w) (b.worn w) above below
  | .removeConstraint id => .removeConstraint (id.worn w)
  | .setLeft id coefficients ids => .setLeft (id.worn w) coefficients (ids.map (·.worn w))
  | .setRelation id relation => .setRelation (id.worn w) relation
  | .setRight id right => .setRight (id.worn w) right
  | .setPenalties id above below => .setPenalties (id.worn w) above below
  | .setConstraintLabel id label => .setConstraintLabel (id.worn w) label
  | .solve => .solve
  | .minSize width height => .minSize (width.worn w) (height.worn w)
  | .maxSize width height => .maxSize (width.worn w) (height.worn w)

/-- A reason, with its handle after the wear. -/
def SpecError.worn (w : Wear) : SpecError α → SpecError α
  | .invalidVariable id => .invalidVariable (id.worn w)
  | .invalidConstraint id => .invalidConstraint (id.worn w)
  | reason => reason

/-- An answer, with its handle after the wear. -/
def Reply.worn (w : Wear) : Reply α → Reply α
  | .variable id => .variable (id.worn w)
  | .constraint id => .constraint (id.worn w)
  | .rejected reason => .rejected (reason.worn w)
  | reply => reply

/-! ### Calls that may be rejected -/

/-- The outcome of a call after the wear: its result changed, or the reason of its rejection. -/
def wornOutcome (w : Wear) {β γ : Type} (f : β → γ) :
    Except (SpecError α) β → Except (SpecError α) γ
  | .ok result => .ok (f result)
  | .error reason => .error (reason.worn w)

theorem wornOutcome_bind {w : Wear} {β γ δ ε : Type} {f : β → γ} {h : δ → ε}
    {x : Except (SpecError α) β} {y : Except (SpecError α) γ} (hxy : y = wornOutcome w f x)
    {g : β → Except (SpecError α) δ} {g' : γ → Except (SpecError α) ε}
    (hg : ∀ b, x = .ok b → g' (f b) = wornOutcome w h (g b)) :
    (y >>= g') = wornOutcome w h (x >>= g) := by
  subst hxy
  cases x with
  | ok b => exact hg b rfl
  | error reason => rfl

namespace Spec

variable {w : Wear} {s : Spec α}

theorem afterChange_worn (x : Except (SpecError α) (Spec α)) :
    (s.worn w).afterChange (wornOutcome w (·.worn w) x)
      = ((s.afterChange x).1.worn w, (s.afterChange x).2.worn w) := by
  cases x with
  | ok t => rfl
  | error reason => rfl

theorem afterAddition_worn (x : Except (SpecError α) (ConstraintId × Spec α)) :
    (s.worn w).afterAddition (wornOutcome w (fun p => (p.1.worn w, p.2.worn w)) x)
      = ((s.afterAddition x).1.worn w, (s.afterAddition x).2.worn w) := by
  cases x with
  | ok p => rfl
  | error reason => rfl

theorem afterQuery_worn (x : Except (SpecError α) (Size α × Spec α)) :
    (s.worn w).afterQuery (wornOutcome w (fun p => (p.1, p.2.worn w)) x)
      = ((s.afterQuery x).1.worn w, (s.afterQuery x).2.worn w) := by
  cases x with
  | ok p => rfl
  | error reason => rfl

/-! ### Checks -/

theorem isUserVariable_worn (id : VariableId) :
    (s.worn w).isUserVariable (id.worn w) = s.isUserVariable id := by
  unfold isUserVariable
  rw [getVariable?_worn, Option.any_map]
  rfl

theorem isUserConstraint_worn (k : ConstraintId) :
    (s.worn w).isUserConstraint (k.worn w) = s.isUserConstraint k := by
  unfold isUserConstraint
  rw [getConstraint?_worn, Option.any_map]
  exact congrArg (Option.any · _) (funext fun c => c.role.beq_user_worn w)

theorem checkConstraint_worn (k : ConstraintId) :
    (s.worn w).checkConstraint (k.worn w) = wornOutcome w id (s.checkConstraint k) := by
  unfold checkConstraint
  rw [isUserConstraint_worn]
  split
  · rfl
  · rfl

theorem summands_worn (coefficients : List α) (ids : List VariableId) :
    (s.worn w).summands coefficients (ids.map (·.worn w))
      = wornOutcome w (List.map (·.worn w)) (s.summands coefficients ids) := by
  have hfind : (ids.map (·.worn w)).find? (!(s.worn w).isUserVariable ·)
      = (ids.find? (!s.isUserVariable ·)).map (·.worn w) := by
    rw [List.find?_map]
    refine congrArg (Option.map _) (congrArg (List.find? · ids) (funext fun id => ?_))
    exact congrArg not (isUserVariable_worn id)
  unfold summands
  rw [List.length_map, hfind]
  split
  · cases ids.find? (!s.isUserVariable ·) with
    | none =>
      refine congrArg Except.ok ?_
      rw [List.zipWith_map_right, List.map_zipWith]
      rfl
    | some id => rfl
  · rfl

variable [Scalar α]

theorem checkRight_worn (right : α) :
    checkRight right = wornOutcome w id (checkRight right) := by
  unfold checkRight
  split
  · rfl
  · rfl

theorem checkPenalties_worn (above below : α) :
    checkPenalties above below = wornOutcome w id (checkPenalties above below) := by
  unfold checkPenalties
  split
  · rfl
  · rfl

/-! ### Edits -/

theorem addConstraint_worn (hs : s.Tidy) {coefficients : List α} (ids : List VariableId)
    {relation : Relation} {right above below : α}
    (hroom : (s.afterAddition
      (s.addConstraint coefficients ids relation right above below)).1.Addressable) :
    (s.worn w).addConstraint coefficients (ids.map (·.worn w)) relation right above below
      = wornOutcome w (fun p => (p.1.worn w, p.2.worn w))
        (s.addConstraint coefficients ids relation right above below) := by
  unfold addConstraint at hroom ⊢
  refine wornOutcome_bind (summands_worn coefficients ids) fun left hleft => ?_
  refine wornOutcome_bind (checkRight_worn right) fun _ hright => ?_
  refine wornOutcome_bind (checkPenalties_worn above below) fun _ hpenalties => ?_
  have hroom : (s.register (.fresh left relation right above below .user)).2.Addressable := by
    rwa [hleft, hright, hpenalties] at hroom
  have hregister := register_worn (w := w) hs hroom
  rw [← Constraint.fresh_worn] at hregister
  exact congrArg Except.ok hregister

theorem setRange_worn (hs : s.Tidy) {id : VariableId} {lower upper : α}
    (hroom : (s.afterChange (s.setRange id lower upper)).1.Addressable) :
    (s.worn w).setRange (id.worn w) lower upper
      = wornOutcome w (·.worn w) (s.setRange id lower upper) := by
  unfold setRange at hroom ⊢
  rw [isUserVariable_worn]
  split
  · rename_i hlive
    rw [if_pos hlive] at hroom
    split
    · rename_i hrange
      rw [if_pos hrange] at hroom
      exact congrArg Except.ok (applyRange_worn hs hroom)
    · rfl
  · rfl

theorem setLower_worn (hs : s.Tidy) {id : VariableId} {lower : α}
    (hroom : (s.afterChange (s.setLower id lower)).1.Addressable) :
    (s.worn w).setLower (id.worn w) lower = wornOutcome w (·.worn w) (s.setLower id lower) := by
  unfold setLower at hroom ⊢
  rw [getVariable?_worn]
  cases hv : s.getVariable? id with
  | none => rfl
  | some v =>
    rw [hv] at hroom
    exact setRange_worn hs hroom

theorem setUpper_worn (hs : s.Tidy) {id : VariableId} {upper : α}
    (hroom : (s.afterChange (s.setUpper id upper)).1.Addressable) :
    (s.worn w).setUpper (id.worn w) upper = wornOutcome w (·.worn w) (s.setUpper id upper) := by
  unfold setUpper at hroom ⊢
  rw [getVariable?_worn]
  cases hv : s.getVariable? id with
  | none => rfl
  | some v =>
    rw [hv] at hroom
    exact setRange_worn hs hroom

omit [Scalar α] in
theorem setVariableLabel_worn (id : VariableId) (label : String) :
    (s.worn w).setVariableLabel (id.worn w) label
      = wornOutcome w (·.worn w) (s.setVariableLabel id label) := by
  unfold setVariableLabel
  rw [getVariable?_worn, Option.isSome_map]
  split
  · exact congrArg Except.ok (modifyVariable_worn (fun _ => by rfl) id)
  · rfl

omit [Scalar α] in
theorem setConstraintLabel_worn (k : ConstraintId) (label : String) :
    (s.worn w).setConstraintLabel (k.worn w) label
      = wornOutcome w (·.worn w) (s.setConstraintLabel k label) := by
  unfold setConstraintLabel
  rw [getConstraint?_worn, Option.isSome_map]
  split
  · exact congrArg Except.ok (modifyConstraint_worn (fun _ => by rfl) k)
  · rfl

/-- A change of a constraint, after a check whose outcome is the same but for the wear. -/
theorem change_worn (hs : s.Tidy) {k : ConstraintId} {β : Type} {r : β → β}
    {x y : Except (SpecError α) β} (hxy : y = wornOutcome w r x)
    {f g : β → Constraint α → Constraint α} (h : ∀ b c, g (r b) (c.worn w) = (f b c).worn w)
    (hroom : (s.afterChange
      (do s.checkConstraint k; let b ← x; return s.mutate k (f b))).1.Addressable) :
    (do (s.worn w).checkConstraint (k.worn w); let b ← y; return (s.worn w).mutate (k.worn w) (g b))
      = wornOutcome w (·.worn w) (do s.checkConstraint k; let b ← x; return s.mutate k (f b)) := by
  refine wornOutcome_bind (checkConstraint_worn k) fun _ hcheck => ?_
  refine wornOutcome_bind hxy fun b hb => ?_
  have hroom : (s.mutate k (f b)).Addressable := by rwa [hcheck, hb] at hroom
  exact congrArg Except.ok (mutate_worn hs (h b) hroom)

omit [Scalar α] in
theorem removeVariable_worn (hs : s.Addressable) (id : VariableId) :
    (s.worn w).removeVariable (id.worn w)
      = ((s.removeVariable id).1, (s.removeVariable id).2.worn w) := by
  unfold removeVariable
  rw [isUserVariable_worn, mentioning_worn hs, foldl_worn fun s k => drop_worn (s := s) k,
    dropVariable_worn]
  split
  · rfl
  · rfl

omit [Scalar α] in
theorem removeConstraint_worn (k : ConstraintId) :
    (s.worn w).removeConstraint (k.worn w)
      = ((s.removeConstraint k).1, (s.removeConstraint k).2.worn w) := by
  unfold removeConstraint
  rw [isUserConstraint_worn, drop_worn]
  split
  · rfl
  · rfl

/-! ### Size queries -/

omit [Scalar α] in
theorem value?_worn (id : VariableId) : (s.worn w).value? (id.worn w) = s.value? id := by
  unfold value?
  rw [getVariable?_worn, Option.map_map]
  rfl

/-- **A query does to the worn copy what it does to the specification**, and gives the same size. -/
theorem sizeQuery_worn (hs : s.Tidy) (h : s.registry.MentionsLive) {width height : VariableId}
    {target : α} {unbounded : Size α}
    (hroom : (s.afterQuery (s.sizeQuery width height target unbounded)).1.Addressable) :
    (s.worn w).sizeQuery (width.worn w) (height.worn w) target unbounded
      = wornOutcome w (fun p => (p.1, p.2.worn w)) (s.sizeQuery width height target unbounded) := by
  have hlive : ∀ id, ((s.worn w).getVariable? (id.worn w)).isSome = (s.getVariable? id).isSome := by
    intro id
    rw [getVariable?_worn, Option.isSome_map]
  have hstale : ∀ {t : Spec α} {id}, ¬(t.getVariable? id).isSome = true →
      (t.getVariable? id).isNone = true := fun hnone => by
    rw [← Option.not_isSome, eq_false_of_ne_true hnone]
    rfl
  by_cases hwidth : (s.getVariable? width).isSome = true
  · by_cases hheight : (s.getVariable? height).isSome = true
    · obtain ⟨t, ht⟩ : ∃ t, t = s.suspendable.foldl (setSuspended false)
        (((s.pinned width height target).2.solve.drop (s.pinned width height target).1.1).drop
          (s.pinned width height target).1.2) := ⟨_, rfl⟩
      have hquery : s.sizeQuery width height target unbounded = .ok (_, t) :=
        sizeQuery_eq_ok_iff.2 ⟨hwidth, hheight, ht, rfl⟩
      rw [hquery] at hroom ⊢
      have hroom : (s.pinned width height target).2.Addressable :=
        (evolves_pinned_sizeQuery hquery).addressable hroom
      have hs' : s.Addressable := (s.evolves_pinned width height target).addressable hroom
      have hpinned := pinned_worn (w := w) hs hroom
      have ht' : t.worn w = (s.worn w).suspendable.foldl (setSuspended false)
          ((((s.worn w).pinned (width.worn w) (height.worn w) target).2.solve.drop
            ((s.worn w).pinned (width.worn w) (height.worn w) target).1.1).drop
            ((s.worn w).pinned (width.worn w) (height.worn w) target).1.2) := by
        rw [hpinned, suspendable_worn hs']
        dsimp only
        rw [solve_worn hroom (mentionsLive_pinned hs h hwidth hheight hroom), drop_worn, drop_worn,
          foldl_worn fun s k => setSuspended_worn (s := s) false k, ht]
      refine sizeQuery_eq_ok_iff.2 ⟨by rwa [hlive], by rwa [hlive], ht', ?_⟩
      rw [value?_worn, value?_worn]
      rfl
    · have hwidth' : ¬(s.getVariable? width).isNone = true := by
        rw [← Option.not_isSome, hwidth]
        exact Bool.false_ne_true
      have hwidth'' : ¬((s.worn w).getVariable? (width.worn w)).isNone = true := by
        rw [← Option.not_isSome, hlive, hwidth]
        exact Bool.false_ne_true
      unfold sizeQuery
      rw [if_neg hwidth', if_neg hwidth'', if_pos (hstale hheight),
        if_pos (hstale (by rwa [hlive]))]
      rfl
  · unfold sizeQuery
    rw [if_pos (hstale hwidth), if_pos (hstale (by rwa [hlive]))]
    rfl

/-! ### Steps and runs -/

/-- **Every call does to a worn copy what it does to the specification**, and gives the same
answer. -/
theorem perform_worn (hs : s.Tidy) (h : s.registry.MentionsLive) {op : Operation α}
    (hroom : (s.perform op).1.Addressable) :
    (s.worn w).perform (op.worn w) = ((s.perform op).1.worn w, (s.perform op).2.worn w) := by
  have hs' : s.Addressable := (step_perform s op).evolves.addressable hroom
  cases op with
  | addVariable label =>
    have hinsert := insertVariable_worn (w := w) hs label false hroom.1
    have hadd : (s.worn w).addVariable label
        = ((s.addVariable label).1.worn w, (s.addVariable label).2.worn w) := by
      unfold addVariable
      rw [hinsert]
      rfl
    unfold perform Operation.worn
    dsimp only
    rw [hadd]
    rfl
  | removeVariable id =>
    unfold perform Operation.worn
    dsimp only
    rw [removeVariable_worn hs']
    rfl
  | setVariableLabel id label =>
    exact (congrArg _ (setVariableLabel_worn id label)).trans (afterChange_worn _)
  | setRange id lower upper =>
    exact (congrArg _ (setRange_worn hs hroom)).trans (afterChange_worn _)
  | setLower id lower => exact (congrArg _ (setLower_worn hs hroom)).trans (afterChange_worn _)
  | setUpper id upper => exact (congrArg _ (setUpper_worn hs hroom)).trans (afterChange_worn _)
  | addConstraint coefficients ids relation right above below =>
    exact (congrArg _ (addConstraint_worn hs ids hroom)).trans (afterAddition_worn _)
  | relate relation a b above below =>
    exact (congrArg _ (addConstraint_worn hs [a, b] hroom)).trans (afterAddition_worn _)
  | removeConstraint id =>
    unfold perform Operation.worn
    dsimp only
    rw [removeConstraint_worn]
    rfl
  | setLeft id coefficients ids =>
    refine (congrArg _ (change_worn hs (summands_worn coefficients ids) (fun left c => ?_)
      hroom)).trans (afterChange_worn _)
    unfold Constraint.worn
    rw [mergeSummands_worn]
  | setRelation id relation =>
    refine (congrArg _ (wornOutcome_bind (checkConstraint_worn id) fun _ hcheck => ?_)).trans
      (afterChange_worn _)
    have hroom : (s.afterChange (do
      s.checkConstraint id; return s.mutate id fun c => { c with relation })).1.Addressable := hroom
    rw [hcheck] at hroom
    exact congrArg Except.ok (mutate_worn hs (fun _ => by rfl) hroom)
  | setRight id right =>
    exact (congrArg _ (change_worn hs (checkRight_worn right) (fun _ _ => rfl)
      hroom)).trans (afterChange_worn _)
  | setPenalties id above below =>
    exact (congrArg _ (change_worn hs (checkPenalties_worn above below) (fun _ _ => rfl)
      hroom)).trans (afterChange_worn _)
  | setConstraintLabel id label =>
    exact (congrArg _ (setConstraintLabel_worn id label)).trans (afterChange_worn _)
  | solve =>
    unfold perform Operation.worn
    dsimp only
    rw [solve_worn hs' h]
    rfl
  | minSize width height =>
    exact (congrArg _ (sizeQuery_worn hs h hroom)).trans (afterQuery_worn _)
  | maxSize width height =>
    exact (congrArg _ (sizeQuery_worn hs h hroom)).trans (afterQuery_worn _)

/-- What a query solves, after the wear. -/
theorem queried?_worn (hs : s.Tidy) {width height : VariableId} {target : α}
    (hroom : ∀ u, s.queried? width height target = some u → u.Addressable) :
    (s.worn w).queried? (width.worn w) (height.worn w) target
      = (s.queried? width height target).map (·.worn w) := by
  unfold queried? at hroom ⊢
  rw [getVariable?_worn, getVariable?_worn, Option.isSome_map, Option.isSome_map]
  split
  · rename_i hlive
    rw [pinned_worn hs (hroom _ (if_pos hlive))]
    rfl
  · rfl

section Reachable

variable [RangeScalar α]

theorem Reachable.mentionsLive (hs : s.Reachable) : s.registry.MentionsLive :=
  fun _ _ hk _ hterm => Option.isSome_map.trans (isSome_of_mentioned hs.tidy_owned.2 hk hterm)

/-- **A history does to a worn copy what it does to the specification.** -/
theorem Reachable.run_worn (hs : s.Reachable) {history : List (Operation α)}
    (hroom : (s.run history).Addressable) :
    (s.worn w).run (history.map (·.worn w)) = (s.run history).worn w := by
  induction history generalizing s with
  | nil => rfl
  | cons op history ih =>
    have hfirst : (s.perform op).1.Addressable := (evolves_run history _).addressable hroom
    have hnext : (s.perform op).1.Reachable := hs.run [op] hfirst
    show ((s.worn w).perform (op.worn w)).1.run (history.map _) = _
    rw [perform_worn hs.tidy_owned.1 hs.mentionsLive hfirst]
    exact ih hnext hroom

/-- **What a later call solves has the same problem.** -/
theorem Reachable.solvedBy?_worn (hs : s.Reachable) {op : Operation α}
    (hroom : (s.perform op).1.Addressable) :
    ((s.worn w).solvedBy? (op.worn w)).map Spec.problem = (s.solvedBy? op).map Spec.problem := by
  have htidy := hs.tidy_owned.1
  have hquery : ∀ {width height : VariableId} {target : α} (unbounded : Size α),
      (s.afterQuery (s.sizeQuery width height target unbounded)).1.Addressable →
        ((s.worn w).queried? (width.worn w) (height.worn w) target).map Spec.problem
          = (s.queried? width height target).map Spec.problem := by
    intro width height target unbounded hroom
    have haddressable : ∀ u, s.queried? width height target = some u → u.Addressable :=
      fun u hu => addressable_queried? unbounded hroom hu
    rw [queried?_worn htidy haddressable, Option.map_map]
    cases hu : s.queried? width height target with
    | none => rfl
    | some u =>
      have hroom' := haddressable u hu
      unfold queried? at hu
      split at hu
      · rename_i hlive
        rw [Bool.and_eq_true] at hlive
        obtain rfl := Option.some.inj hu
        exact congrArg some (problem_worn hroom'
          (mentionsLive_pinned htidy hs.mentionsLive hlive.1 hlive.2 hroom'))
      · exact absurd hu (by simp)
  cases op with
  | solve => exact congrArg some (problem_worn hs.1 hs.mentionsLive)
  | minSize width height => exact hquery Size.zero hroom
  | maxSize width height => exact hquery Size.unbounded hroom
  | _ => rfl

end Reachable

end Spec

end ElasticLayout
