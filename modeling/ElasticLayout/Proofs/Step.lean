import ElasticLayout.Proofs.Evolution

/-!
# The steps of a specification

What a call can do is said once.  A call either is rejected and changes nothing, or makes one of the
changes below, and then its arguments have passed the checks named there.

* `Spec.Admits`, `Spec.summands_ok`, `Spec.checkConstraint_ok`, `Spec.checkRight_ok`,
  `Spec.checkPenalties_ok` -- what it means that a check is passed;
* `Spec.addConstraint_eq_ok_iff`, `Spec.setLeft_eq_ok_iff`, `Spec.setPenalties_eq_ok_iff`,
  `Spec.setRange_ok` -- and that all checks of a call are;
* `Spec.Step` -- the changes a call can make;
* `Spec.step_perform` -- every call makes one of them;
* `Spec.Reachable.induction` -- what holds of an empty specification and is kept by every step
  holds of every reachable specification.
-/

namespace ElasticLayout

/-- A computation that may be rejected goes on only with the result of its first part. -/
theorem bind_ok {ε β γ : Type} {x : Except ε β} {f : β → Except ε γ} {r : γ}
    (h : x >>= f = .ok r) : ∃ a, x = .ok a ∧ f a = .ok r := by
  cases x with
  | error e => exact absurd h (by simp [bind, Except.bind])
  | ok a => exact ⟨a, rfl, h⟩

namespace Spec

variable {α : Type}

/-! ### Checks -/

theorem isUserVariable_iff (s : Spec α) (id : VariableId) :
    s.isUserVariable id = true ↔ ∃ v, s.getVariable? id = some v ∧ v.isSlack = false := by
  unfold isUserVariable
  cases s.getVariable? id <;> simp

theorem isUserConstraint_iff (s : Spec α) (id : ConstraintId) :
    s.isUserConstraint id = true ↔ ∃ c, s.getConstraint? id = some c ∧ c.role = .user := by
  unfold isUserConstraint
  cases s.getConstraint? id <;> simp

/-- A left side that may be given: one coefficient for each variable, and the variables are those
of the caller. -/
def Admits (s : Spec α) (coefficients : List α) (ids : List VariableId) : Prop :=
  coefficients.length = ids.length ∧ ∀ id ∈ ids, s.isUserVariable id = true

theorem Admits.isUserVariable {s : Spec α} {coefficients : List α} {ids : List VariableId}
    (h : s.Admits coefficients ids) :
    ∀ term ∈ List.zipWith Summand.mk coefficients ids, s.isUserVariable term.var = true := by
  intro term hterm
  obtain ⟨i, hi, rfl⟩ := List.mem_iff_getElem.1 hterm
  rw [List.getElem_zipWith]
  exact h.2 _ (List.getElem_mem _)

/-- A left side that may be given is accepted as it is, and no other is accepted. -/
theorem summands_eq_ok_iff {s : Spec α} {coefficients : List α} {ids : List VariableId}
    {left : List (Summand α)} : s.summands coefficients ids = .ok left ↔
      s.Admits coefficients ids ∧ left = List.zipWith Summand.mk coefficients ids := by
  unfold summands Admits
  by_cases hlength : coefficients.length = ids.length
  · rw [if_pos hlength]
    cases hfind : ids.find? (!s.isUserVariable ·) with
    | none =>
      have hids : ∀ id ∈ ids, s.isUserVariable id = true := by
        simpa using List.find?_eq_none.1 hfind
      exact ⟨fun h => ⟨⟨hlength, hids⟩, (Except.ok.inj h).symm⟩,
        fun h => congrArg Except.ok h.2.symm⟩
    | some id =>
      have hid : s.isUserVariable id = false := by simpa using List.find?_some hfind
      refine iff_of_false (by simp) fun h => ?_
      rw [h.1.2 id (List.mem_of_find?_eq_some hfind)] at hid
      exact absurd hid (by simp)
  · rw [if_neg hlength]
    exact iff_of_false (by simp) fun h => hlength h.1.1

theorem summands_ok {s : Spec α} {coefficients : List α} {ids : List VariableId}
    {left : List (Summand α)} (h : s.summands coefficients ids = .ok left) :
    ∀ term ∈ left, s.isUserVariable term.var = true := by
  obtain ⟨hadmits, rfl⟩ := summands_eq_ok_iff.1 h
  exact hadmits.isUserVariable

theorem checkConstraint_ok {s : Spec α} {id : ConstraintId} {u : Unit}
    (h : s.checkConstraint id = .ok u) : s.isUserConstraint id = true := by
  unfold checkConstraint at h
  split at h
  · assumption
  · exact absurd h (by simp)

variable [Scalar α]

theorem checkRight_ok {right : α} {u : Unit} (h : checkRight right = .ok u) :
    Scalar.isFinite right = true := by
  unfold checkRight at h
  split at h
  · assumption
  · exact absurd h (by simp)

theorem checkPenalties_ok {above below : α} {u : Unit} (h : checkPenalties above below = .ok u) :
    isPenalty above = true ∧ isPenalty below = true := by
  unfold checkPenalties at h
  split at h
  · rename_i hvalid
    simpa using hvalid
  · exact absurd h (by simp)

/-- An addition is accepted exactly if all its arguments pass their checks. -/
theorem addConstraint_eq_ok_iff {s : Spec α} {coefficients : List α} {ids : List VariableId}
    {relation : Relation} {right above below : α} {p : ConstraintId × Spec α} :
    s.addConstraint coefficients ids relation right above below = .ok p ↔
      (s.Admits coefficients ids ∧ Scalar.isFinite right = true ∧ isPenalty above = true ∧
        isPenalty below = true) ∧
      s.register (.fresh (List.zipWith Summand.mk coefficients ids) relation right above below
        .user) = p := by
  constructor
  · intro h
    obtain ⟨left, hleft, h⟩ := bind_ok h
    obtain ⟨_, hright, h⟩ := bind_ok h
    obtain ⟨_, hpenalties, h⟩ := bind_ok h
    obtain ⟨hadmits, rfl⟩ := summands_eq_ok_iff.1 hleft
    exact ⟨⟨hadmits, checkRight_ok hright, checkPenalties_ok hpenalties⟩, Except.ok.inj h⟩
  · rintro ⟨⟨hadmits, hright, habove, hbelow⟩, rfl⟩
    have hfinite : checkRight right = .ok () := if_pos hright
    have hproper : checkPenalties above below = .ok () := if_pos (by rw [habove, hbelow]; rfl)
    unfold addConstraint
    rw [summands_eq_ok_iff.2 ⟨hadmits, rfl⟩, hfinite, hproper]
    rfl

/-- A left side is replaced exactly if the constraint is the caller's and the new one may be
given. -/
theorem setLeft_eq_ok_iff {s t : Spec α} {id : ConstraintId} {coefficients : List α}
    {ids : List VariableId} : s.setLeft id coefficients ids = .ok t ↔
      (s.isUserConstraint id = true ∧ s.Admits coefficients ids) ∧
      s.mutate id (fun c => { c with
        left := mergeSummands (List.zipWith Summand.mk coefficients ids) }) = t := by
  constructor
  · intro h
    obtain ⟨_, hid, h⟩ := bind_ok h
    obtain ⟨left, hleft, h⟩ := bind_ok h
    obtain ⟨hadmits, rfl⟩ := summands_eq_ok_iff.1 hleft
    exact ⟨⟨checkConstraint_ok hid, hadmits⟩, Except.ok.inj h⟩
  · rintro ⟨⟨hid, hadmits⟩, rfl⟩
    have huser : s.checkConstraint id = .ok () := if_pos hid
    unfold setLeft
    rw [huser, summands_eq_ok_iff.2 ⟨hadmits, rfl⟩]
    rfl

/-- Penalties are replaced exactly if the constraint is the caller's and they are proper. -/
theorem setPenalties_eq_ok_iff {s t : Spec α} {id : ConstraintId} {above below : α} :
    s.setPenalties id above below = .ok t ↔
      (s.isUserConstraint id = true ∧ isPenalty above = true ∧ isPenalty below = true) ∧
      s.mutate id (fun c => { c with penaltyAbove := above, penaltyBelow := below }) = t := by
  constructor
  · intro h
    obtain ⟨_, hid, h⟩ := bind_ok h
    obtain ⟨_, hpenalties, h⟩ := bind_ok h
    exact ⟨⟨checkConstraint_ok hid, checkPenalties_ok hpenalties⟩, Except.ok.inj h⟩
  · rintro ⟨⟨hid, habove, hbelow⟩, rfl⟩
    have huser : s.checkConstraint id = .ok () := if_pos hid
    have hproper : checkPenalties above below = .ok () := if_pos (by rw [habove, hbelow]; rfl)
    unfold setPenalties
    rw [huser, hproper]
    rfl

/-- A range that is set has passed the check. -/
theorem setRange_ok {s t : Spec α} {id : VariableId} {lower upper : α}
    (h : s.setRange id lower upper = .ok t) : s.isUserVariable id = true ∧
      isRange lower upper = true ∧ t = s.applyRange id lower upper := by
  unfold Spec.setRange at h
  split at h
  · split at h
    · exact ⟨‹_›, ‹_›, (Except.ok.inj h).symm⟩
    · exact absurd h (by simp)
  · exact absurd h (by simp)

/-- The other end of the range stays. -/
theorem setLower_ok {s t : Spec α} {id : VariableId} {lower : α}
    (h : s.setLower id lower = .ok t) :
    ∃ v, s.getVariable? id = some v ∧ s.setRange id lower v.upper = .ok t := by
  unfold setLower at h
  split at h
  · exact ⟨_, ‹_›, h⟩
  · exact absurd h (by simp)

theorem setUpper_ok {s t : Spec α} {id : VariableId} {upper : α}
    (h : s.setUpper id upper = .ok t) :
    ∃ v, s.getVariable? id = some v ∧ s.setRange id v.lower upper = .ok t := by
  unfold setUpper at h
  split at h
  · exact ⟨_, ‹_›, h⟩
  · exact absurd h (by simp)

/-! ### Changes -/

/-- What a call can do to a specification. -/
inductive Step : Spec α → Spec α → Prop where
  /-- The call is rejected. -/
  | stay (s : Spec α) : Step s s
  /-- A variable is added. -/
  | addVariable (s : Spec α) (label : Option String) : Step s (s.addVariable label).2
  /-- A variable of the caller is removed with the constraints that mention it. -/
  | removeVariable (s : Spec α) (id : VariableId) (h : s.isUserVariable id = true) :
      Step s (((s.mentioning id).foldl drop s).dropVariable id)
  /-- A variable is named. -/
  | nameVariable (s : Spec α) (id : VariableId) (label : Option String) :
      Step s (s.modifyVariable id fun v => { v with label })
  /-- The range of a variable of the caller is set. -/
  | setRange (s : Spec α) (id : VariableId) (lower upper : α) (h : s.isUserVariable id = true)
      (hrange : isRange lower upper = true) : Step s (s.applyRange id lower upper)
  /-- A constraint on variables of the caller is added. -/
  | addConstraint (s : Spec α) (left : List (Summand α)) (relation : Relation)
      (right above below : α) (hleft : ∀ term ∈ left, s.isUserVariable term.var = true)
      (hright : Scalar.isFinite right = true) (habove : isPenalty above = true)
      (hbelow : isPenalty below = true) :
      Step s (s.register (.fresh left relation right above below .user)).2
  /-- A constraint of the caller is removed. -/
  | removeConstraint (s : Spec α) (id : ConstraintId) (h : s.isUserConstraint id = true) :
      Step s (s.drop id)
  /-- The left side of a constraint of the caller is replaced. -/
  | setLeft (s : Spec α) (id : ConstraintId) (left : List (Summand α))
      (h : s.isUserConstraint id = true)
      (hleft : ∀ term ∈ left, s.isUserVariable term.var = true) :
      Step s (s.mutate id fun c => { c with left := mergeSummands left })
  /-- The comparison of a constraint of the caller is replaced. -/
  | setRelation (s : Spec α) (id : ConstraintId) (relation : Relation)
      (h : s.isUserConstraint id = true) : Step s (s.mutate id fun c => { c with relation })
  /-- The right side of a constraint of the caller is replaced. -/
  | setRight (s : Spec α) (id : ConstraintId) (right : α) (h : s.isUserConstraint id = true)
      (hright : Scalar.isFinite right = true) : Step s (s.mutate id fun c => { c with right })
  /-- The penalties of a constraint of the caller are replaced. -/
  | setPenalties (s : Spec α) (id : ConstraintId) (above below : α)
      (h : s.isUserConstraint id = true) (habove : isPenalty above = true)
      (hbelow : isPenalty below = true) :
      Step s (s.mutate id fun c => { c with penaltyAbove := above, penaltyBelow := below })
  /-- A constraint is named. -/
  | nameConstraint (s : Spec α) (id : ConstraintId) (label : Option String) :
      Step s (s.modifyConstraint id fun c => { c with label })
  /-- The specification is solved. -/
  | solve (s : Spec α) : Step s s.solve
  /-- A size is asked for. -/
  | query {s t : Spec α} (width height : VariableId) (target : α) (unbounded : Size α)
      {size : Size α} (h : s.sizeQuery width height target unbounded = .ok (size, t)) : Step s t

/-- A change that may be rejected is a step if what it leads to is one. -/
theorem step_afterChange {s : Spec α} {r : Except (SpecError α) (Spec α)}
    (h : ∀ t, r = .ok t → Step s t) : Step s (s.afterChange r).1 := by
  cases r with
  | error e => exact .stay s
  | ok t => exact h t rfl

theorem step_afterAddition {s : Spec α} {r : Except (SpecError α) (ConstraintId × Spec α)}
    (h : ∀ id t, r = .ok (id, t) → Step s t) : Step s (s.afterAddition r).1 := by
  cases r with
  | error e => exact .stay s
  | ok p => exact h p.1 p.2 rfl

theorem step_afterQuery {s : Spec α} {r : Except (SpecError α) (Size α × Spec α)}
    (h : ∀ size t, r = .ok (size, t) → Step s t) : Step s (s.afterQuery r).1 := by
  cases r with
  | error e => exact .stay s
  | ok p => exact h p.1 p.2 rfl

theorem step_of_setRange {s t : Spec α} {id : VariableId} {lower upper : α}
    (h : s.setRange id lower upper = .ok t) : Step s t := by
  obtain ⟨huser, hrange, rfl⟩ := setRange_ok h
  exact .setRange s id lower upper huser hrange

theorem step_of_addConstraint {s t : Spec α} {coefficients : List α} {ids : List VariableId}
    {relation : Relation} {right above below : α} {id : ConstraintId}
    (h : s.addConstraint coefficients ids relation right above below = .ok (id, t)) :
    Step s t := by
  obtain ⟨⟨hadmits, hright, habove, hbelow⟩, ht⟩ := addConstraint_eq_ok_iff.1 h
  rw [show t = (s.register (.fresh (List.zipWith Summand.mk coefficients ids) relation right above
    below .user)).2 by rw [ht]]
  exact .addConstraint s _ relation right above below hadmits.isUserVariable hright habove hbelow

/-- **Every call makes one of the steps.** -/
theorem step_perform (s : Spec α) (op : Operation α) : Step s (s.perform op).1 := by
  cases op with
  | addVariable label => exact .addVariable s label
  | removeVariable id =>
    show Step s (s.removeVariable id).2
    unfold Spec.removeVariable
    split
    · exact .removeVariable s id ‹_›
    · exact .stay s
  | setVariableLabel id label =>
    refine step_afterChange fun t h => ?_
    unfold setVariableLabel at h
    split at h
    · rw [← Except.ok.inj h]
      exact .nameVariable s id (some label)
    · exact absurd h (by simp)
  | setRange id lower upper => exact step_afterChange fun t h => step_of_setRange h
  | setLower id lower =>
    refine step_afterChange fun t h => ?_
    obtain ⟨v, -, hset⟩ := setLower_ok h
    exact step_of_setRange hset
  | setUpper id upper =>
    refine step_afterChange fun t h => ?_
    obtain ⟨v, -, hset⟩ := setUpper_ok h
    exact step_of_setRange hset
  | addConstraint coefficients ids relation right above below =>
    exact step_afterAddition fun id t h => step_of_addConstraint h
  | relate relation a b above below =>
    exact step_afterAddition fun id t h => step_of_addConstraint h
  | removeConstraint id =>
    show Step s (s.removeConstraint id).2
    unfold Spec.removeConstraint
    split
    · exact .removeConstraint s id ‹_›
    · exact .stay s
  | setLeft id coefficients ids =>
    refine step_afterChange fun t h => ?_
    obtain ⟨⟨hid, hadmits⟩, rfl⟩ := setLeft_eq_ok_iff.1 h
    exact .setLeft s id _ hid hadmits.isUserVariable
  | setRelation id relation =>
    refine step_afterChange fun t h => ?_
    obtain ⟨_, hid, h⟩ := bind_ok h
    rw [← Except.ok.inj h]
    exact .setRelation s id relation (checkConstraint_ok hid)
  | setRight id right =>
    refine step_afterChange fun t h => ?_
    obtain ⟨_, hid, h⟩ := bind_ok h
    obtain ⟨_, hright, h⟩ := bind_ok h
    rw [← Except.ok.inj h]
    exact .setRight s id right (checkConstraint_ok hid) (checkRight_ok hright)
  | setPenalties id above below =>
    refine step_afterChange fun t h => ?_
    obtain ⟨⟨hid, habove, hbelow⟩, rfl⟩ := setPenalties_eq_ok_iff.1 h
    exact .setPenalties s id above below hid habove hbelow
  | setConstraintLabel id label =>
    refine step_afterChange fun t h => ?_
    unfold setConstraintLabel at h
    split at h
    · rw [← Except.ok.inj h]
      exact .nameConstraint s id (some label)
    · exact absurd h (by simp)
  | solve => exact .solve s
  | minSize width height => exact step_afterQuery fun size t h => .query _ _ _ _ h
  | maxSize width height => exact step_afterQuery fun size t h => .query _ _ _ _ h

/-! ### Histories -/

theorem Step.evolves {s t : Spec α} (h : Step s t) : s.Evolves t 2 8 := by
  cases h with
  | stay => exact (Evolves.refl s).mono (by omega) (by omega)
  | addVariable label => exact (s.evolves_insertVariable _).mono (by omega) (by omega)
  | removeVariable id =>
    exact ((Evolves.foldl_zero evolves_drop _ s).trans (evolves_dropVariable _ id)).mono
      (by omega) (by omega)
  | nameVariable id label => exact (s.evolves_modifyVariable _ _).mono (by omega) (by omega)
  | setRange id lower upper => exact (s.evolves_applyRange _ _ _).mono (by omega) (by omega)
  | addConstraint left relation right above below =>
    exact (s.evolves_register _).mono (by omega) (by omega)
  | removeConstraint id => exact (s.evolves_drop id).mono (by omega) (by omega)
  | setLeft id left => exact (s.evolves_mutate _ _).mono (by omega) (by omega)
  | setRelation id relation => exact (s.evolves_mutate _ _).mono (by omega) (by omega)
  | setRight id right => exact (s.evolves_mutate _ _).mono (by omega) (by omega)
  | setPenalties id above below => exact (s.evolves_mutate _ _).mono (by omega) (by omega)
  | nameConstraint id label => exact (s.evolves_modifyConstraint _ _).mono (by omega) (by omega)
  | solve => exact s.evolves_solve.mono (by omega) (by omega)
  | query width height target unbounded hquery => exact evolves_sizeQuery hquery

theorem evolves_run (history : List (Operation α)) (s : Spec α) :
    s.Evolves (s.run history) (history.length * 2) (history.length * 8) :=
  Evolves.foldl (fun s op => (s.step_perform op).evolves) history s

/-- **Handles do not run out soon**: a history of half a billion calls does not use them up. -/
theorem reachable_run (options : Options α) {history : List (Operation α)}
    (h : history.length * 8 ≤ UInt32.size) : (({ options } : Spec α).run history).Reachable := by
  have hevolves := evolves_run history ({ options } : Spec α)
  have hv := hevolves.le_variables
  have hc := hevolves.le_constraints
  simp only [List.size_toArray, List.length_nil, Nat.zero_add] at hv hc
  exact ⟨⟨hv.trans (by omega), hc.trans h⟩, options, history, rfl⟩

/-- A history goes on, if there are handles enough at its end. -/
theorem Reachable.run {s : Spec α} (hs : s.Reachable) (history : List (Operation α))
    (hroom : (s.run history).Addressable) : (s.run history).Reachable := by
  obtain ⟨-, options, earlier, rfl⟩ := hs
  exact ⟨hroom, options, earlier ++ history, List.foldl_append⟩

/-- **Induction over histories.**  What holds of an empty specification, and is kept by every step
that has handles enough, holds of every reachable specification. -/
theorem Reachable.induction {P : Spec α → Prop} (initial : ∀ options, P { options })
    (step : ∀ s t, P s → Step s t → t.Addressable → P t) {s : Spec α} (h : s.Reachable) :
    P s := by
  obtain ⟨haddressable, options, history, rfl⟩ := h
  suffices hrun : ∀ (history : List (Operation α)) (s : Spec α), P s →
      (s.run history).Addressable → P (s.run history) from
    hrun history _ (initial options) haddressable
  intro history
  induction history with
  | nil => exact fun s hs _ => hs
  | cons op history ih =>
    intro s hs ht
    have hfirst : (s.perform op).1.Addressable := (evolves_run history _).addressable ht
    exact ih _ (step s _ hs (s.step_perform op) hfirst) ht

end Spec

end ElasticLayout
