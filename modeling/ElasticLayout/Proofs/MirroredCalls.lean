import ElasticLayout.Proofs.Columns
import ElasticLayout.Proofs.MirroredQueries

/-!
# The same calls on both sides

A history of calls keeps specifications that mirror each other the same, if each side is called with
handles of its own.  There is one condition.  A variable is removed with the constraints that
mention it, in the order of their handles; the renaming has to keep that order, since the cells that
become vacant are given out again in the reverse order.

* `Operation.rename`, `Reply.rename` -- calls and answers with other handles;
* `Spec.KeepsCascades` -- the condition, along a history;
* `Spec.Alike`, `Spec.Mirrored` -- calls with the same outcome on both sides;
* `Spec.solvedBy?` -- the specification that a call solves;
* `Spec.Mirrors.perform`, `Spec.Mirrors.run` -- the step and the run.
-/

namespace ElasticLayout

variable {α : Type}

/-! ### Calls with other handles -/

/-- A call with renamed handles of constraints. -/
def Operation.rename (ρ : Equiv.Perm Slot) : Operation α → Operation α
  | .removeConstraint id => .removeConstraint (id.rename ρ)
  | .setLeft id coefficients ids => .setLeft (id.rename ρ) coefficients ids
  | .setRelation id relation => .setRelation (id.rename ρ) relation
  | .setRight id right => .setRight (id.rename ρ) right
  | .setPenalties id above below => .setPenalties (id.rename ρ) above below
  | .setConstraintLabel id label => .setConstraintLabel (id.rename ρ) label
  | op => op

/-- A reason with a renamed handle. -/
def SpecError.rename (ρ : Equiv.Perm Slot) : SpecError α → SpecError α
  | .invalidConstraint id => .invalidConstraint (id.rename ρ)
  | reason => reason

/-- An answer with a renamed handle. -/
def Reply.rename (ρ : Equiv.Perm Slot) : Reply α → Reply α
  | .constraint id => .constraint (id.rename ρ)
  | .rejected reason => .rejected (reason.rename ρ)
  | reply => reply

namespace Spec

/-! ### Outcomes that correspond -/

/-- Both computations are rejected for the same reason, or both go on with results that belong
together. -/
inductive Alike (ρ : Equiv.Perm Slot) {β : Type} (R : β → β → Prop) :
    Except (SpecError α) β → Except (SpecError α) β → Prop where
  | ok {x y : β} (h : R x y) : Alike ρ R (.ok x) (.ok y)
  | error (reason : SpecError α) : Alike ρ R (.error reason) (.error (reason.rename ρ))

theorem Alike.bind {ρ : Equiv.Perm Slot} {β γ : Type} {R : β → β → Prop} {Q : γ → γ → Prop}
    {x y : Except (SpecError α) β} (h : Alike ρ R x y) {f g : β → Except (SpecError α) γ}
    (hfg : ∀ a b, R a b → Alike ρ Q (f a) (g b)) : Alike ρ Q (x >>= f) (y >>= g) := by
  cases h with
  | ok hab => exact hfg _ _ hab
  | error reason => exact .error reason

/-- Specifications and answers that belong together, as long as there are handles. -/
def Mirrored (ρ : Equiv.Perm Slot) (p q : Spec α × Reply α) : Prop :=
  q.1.Addressable → Mirrors ρ p.1 q.1 ∧ q.2 = p.2.rename ρ

variable {ρ : Equiv.Perm Slot} {s t : Spec α}

theorem mirrored_afterChange (h : Mirrors ρ s t) {x y : Except (SpecError α) (Spec α)}
    (hxy : Alike ρ (fun u v => v.Addressable → Mirrors ρ u v) x y) :
    Mirrored ρ (s.afterChange x) (t.afterChange y) := by
  cases hxy with
  | ok hmirrors => exact fun hroom => ⟨hmirrors hroom, rfl⟩
  | error reason => exact fun _ => ⟨h, rfl⟩

theorem mirrored_afterAddition (h : Mirrors ρ s t)
    {x y : Except (SpecError α) (ConstraintId × Spec α)}
    (hxy : Alike ρ (fun u v => v.2.Addressable → v.1 = u.1.rename ρ ∧ Mirrors ρ u.2 v.2) x y) :
    Mirrored ρ (s.afterAddition x) (t.afterAddition y) := by
  cases hxy with
  | ok hmirrors =>
    rename_i u v
    intro hroom
    obtain ⟨hhandle, hmirrors⟩ := hmirrors hroom
    refine ⟨hmirrors, ?_⟩
    show Reply.constraint v.1 = Reply.constraint (u.1.rename ρ)
    rw [hhandle]
  | error reason => exact fun _ => ⟨h, rfl⟩

/-! ### Checks -/

namespace Mirrors

theorem isUserVariable (h : Mirrors ρ s t) : t.isUserVariable = s.isUserVariable := by
  funext id
  unfold Spec.isUserVariable
  cases hv : s.getVariable? id with
  | none => rw [h.getVariable?_eq_none hv]
  | some v =>
    obtain ⟨w, hw, hvw⟩ := h.getVariable?_eq_some hv
    have hslack : w.isSlack = v.isSlack := congrArg (fun x => x.isSlack) hvw
    rw [hw, Option.any_some, Option.any_some, hslack]

theorem isSome_getVariable? (h : Mirrors ρ s t) (id : VariableId) :
    (t.getVariable? id).isSome = (s.getVariable? id).isSome := by
  cases hv : s.getVariable? id with
  | none => rw [h.getVariable?_eq_none hv]
  | some v =>
    obtain ⟨w, hw, -⟩ := h.getVariable?_eq_some hv
    rw [hw]
    rfl

theorem isUserConstraint (h : Mirrors ρ s t) (id : ConstraintId) :
    t.isUserConstraint (id.rename ρ) = s.isUserConstraint id := by
  unfold Spec.isUserConstraint
  rw [h.constraint, Option.any_map]
  refine congrArg (Option.any · _) (funext fun c => ?_)
  exact Bool.eq_iff_iff.2 (by simp [Constraint.rename])

theorem alike_checkConstraint (h : Mirrors ρ s t) (id : ConstraintId) :
    Alike ρ Eq (s.checkConstraint id) (t.checkConstraint (id.rename ρ)) := by
  unfold checkConstraint
  rw [h.isUserConstraint]
  split
  · exact .ok rfl
  · exact .error (.invalidConstraint id)

theorem alike_summands (h : Mirrors ρ s t) (coefficients : List α) (ids : List VariableId) :
    Alike ρ Eq (s.summands coefficients ids) (t.summands coefficients ids) := by
  unfold summands
  rw [h.isUserVariable]
  split
  · split
    · exact .error (.invalidVariable _)
    · exact .ok rfl
  · exact .error (.lengthMismatch _ _)

variable [Scalar α]

theorem alike_checkRight (right : α) :
    Alike ρ Eq (checkRight right) (checkRight right) := by
  unfold checkRight
  split
  · exact .ok rfl
  · exact .error (.invalidRightSide right)

theorem alike_checkPenalties (above below : α) :
    Alike ρ Eq (checkPenalties above below) (checkPenalties above below) := by
  unfold checkPenalties
  split
  · exact .ok rfl
  · exact .error (.invalidPenalty above below)

/-! ### Edits -/

theorem alike_setRange (h : Mirrors ρ s t) (id : VariableId) (lower upper : α) :
    Alike ρ (fun u v => v.Addressable → Mirrors ρ u v) (s.setRange id lower upper)
      (t.setRange id lower upper) := by
  unfold setRange
  rw [h.isUserVariable]
  split
  · split
    · exact .ok fun hroom => h.applyRange id lower upper hroom
    · exact .error (.invalidRange lower upper)
  · exact .error (.invalidVariable id)

theorem alike_setLower (h : Mirrors ρ s t) (id : VariableId) (lower : α) :
    Alike ρ (fun u v => v.Addressable → Mirrors ρ u v) (s.setLower id lower)
      (t.setLower id lower) := by
  unfold setLower
  cases hv : s.getVariable? id with
  | none =>
    rw [h.getVariable?_eq_none hv]
    exact .error (.invalidVariable id)
  | some v =>
    obtain ⟨w, hw, hvw⟩ := h.getVariable?_eq_some hv
    have hupper : w.upper = v.upper := congrArg (fun x => x.upper) hvw
    rw [hw]
    dsimp only
    rw [hupper]
    exact h.alike_setRange id lower v.upper

theorem alike_setUpper (h : Mirrors ρ s t) (id : VariableId) (upper : α) :
    Alike ρ (fun u v => v.Addressable → Mirrors ρ u v) (s.setUpper id upper)
      (t.setUpper id upper) := by
  unfold setUpper
  cases hv : s.getVariable? id with
  | none =>
    rw [h.getVariable?_eq_none hv]
    exact .error (.invalidVariable id)
  | some v =>
    obtain ⟨w, hw, hvw⟩ := h.getVariable?_eq_some hv
    have hlower : w.lower = v.lower := congrArg (fun x => x.lower) hvw
    rw [hw]
    dsimp only
    rw [hlower]
    exact h.alike_setRange id v.lower upper

omit [Scalar α] in
theorem alike_setVariableLabel (h : Mirrors ρ s t) (id : VariableId) (label : String) :
    Alike ρ (fun u v => v.Addressable → Mirrors ρ u v) (s.setVariableLabel id label)
      (t.setVariableLabel id label) := by
  unfold setVariableLabel
  rw [h.isSome_getVariable?]
  split
  · refine .ok fun _ => h.modifyVariable id fun v w hvw => ?_
    exact congrArg (fun x : Standing α => { x with label := some label }) hvw
  · exact .error (.invalidVariable id)

omit [Scalar α] in
theorem alike_setConstraintLabel (h : Mirrors ρ s t) (id : ConstraintId) (label : String) :
    Alike ρ (fun u v => v.Addressable → Mirrors ρ u v) (s.setConstraintLabel id label)
      (t.setConstraintLabel (id.rename ρ) label) := by
  unfold setConstraintLabel
  rw [h.constraint, Option.isSome_map]
  split
  · exact .ok fun _ => h.modifyConstraint id fun _ => rfl
  · exact .error (.invalidConstraint id)

/-- A change of a constraint after a check that both sides pass or fail together. -/
theorem alike_change (h : Mirrors ρ s t) (id : ConstraintId) {β : Type}
    {x y : Except (SpecError α) β} (hxy : Alike ρ Eq x y) {f : β → Constraint α → Constraint α}
    (hf : ∀ b c, f b (c.rename ρ) = (f b c).rename ρ) :
    Alike ρ (fun u v => v.Addressable → Mirrors ρ u v)
      (do s.checkConstraint id; let b ← x; return s.mutate id (f b))
      (do t.checkConstraint (id.rename ρ); let b ← y; return t.mutate (id.rename ρ) (f b)) := by
  refine (h.alike_checkConstraint id).bind fun _ _ _ => hxy.bind fun b b' hb => ?_
  subst hb
  exact .ok fun hroom => h.mutate id (hf b) hroom

theorem alike_addConstraint (h : Mirrors ρ s t) (coefficients : List α) (ids : List VariableId)
    (relation : Relation) (right above below : α) :
    Alike ρ (fun u v => v.2.Addressable → v.1 = u.1.rename ρ ∧ Mirrors ρ u.2 v.2)
      (s.addConstraint coefficients ids relation right above below)
      (t.addConstraint coefficients ids relation right above below) := by
  refine (h.alike_summands coefficients ids).bind fun left left' hleft => ?_
  refine (alike_checkRight right).bind fun _ _ _ => ?_
  refine (alike_checkPenalties above below).bind fun _ _ _ => ?_
  subst hleft
  exact .ok fun hroom => h.register (.fresh left relation right above below .user) hroom

omit [Scalar α] in
theorem foldl_drop (h : Mirrors ρ s t) (ks : List ConstraintId) :
    Mirrors ρ (ks.foldl Spec.drop s) ((ks.map (·.rename ρ)).foldl Spec.drop t) := by
  induction ks generalizing s t with
  | nil => exact h
  | cons k ks ih => exact ih (h.drop k)

end Mirrors

/-! ### Cascades -/

/-- The renaming keeps the order of the constraints that go along with a variable. -/
def KeepsCascade (ρ : Equiv.Perm Slot) (s : Spec α) : Operation α → Prop
  | .removeVariable id => ((s.mentioning id).map (·.rename ρ)).Pairwise fun a b =>
    a.slot.precedes b.slot = true
  | _ => True

variable [Scalar α]

/-- The renaming keeps the order of every cascade of a history. -/
def KeepsCascades (ρ : Equiv.Perm Slot) : Spec α → List (Operation α) → Prop
  | _, [] => True
  | s, op :: history => s.KeepsCascade ρ op ∧ KeepsCascades ρ (s.perform op).1 history

namespace Mirrors

omit [Scalar α] in
/-- The constraints that mention a variable are the same, and in the same order if the renaming
keeps it. -/
theorem mentioning (h : Mirrors ρ s t) (ht : t.Addressable) {id : VariableId}
    (horder : s.KeepsCascade ρ (.removeVariable id)) :
    t.mentioning id = (s.mentioning id).map (·.rename ρ) := by
  refine eq_of_pairwise_precedes ConstraintId.slot ?_ horder fun k => ?_
  · unfold Spec.mentioning
    rw [List.pairwise_map]
    exact (constraintList_pairwise ht).filter _
  · obtain ⟨j, rfl⟩ := k.exists_rename ρ
    rw [mem_mentioning ht, List.mem_map]
    constructor
    · rintro ⟨d, hd, hrole, hmention⟩
      rw [show t.registry.constraint? (j.rename ρ) = (s.getConstraint? j).map (·.rename ρ) from
        h.constraint j] at hd
      obtain ⟨c, hc, rfl⟩ := Option.map_eq_some_iff.1 hd
      exact ⟨j, (mem_mentioning (h.addressable ht)).2
        ⟨c, hc, Role.rename_eq_user.1 hrole, hmention⟩, rfl⟩
    · rintro ⟨i, hi, heq⟩
      obtain rfl := ConstraintId.rename_inj.1 heq
      obtain ⟨c, hc, hrole, hmention⟩ := (mem_mentioning (h.addressable ht)).1 hi
      exact ⟨c.rename ρ, h.getConstraint?_eq_some hc, Role.rename_eq_user.2 hrole, hmention⟩

end Mirrors

/-! ### What a call solves -/

/-- The specification that a size query solves; none if it is rejected. -/
def queried? (s : Spec α) (width height : VariableId) (target : α) : Option (Spec α) :=
  if (s.getVariable? width).isSome && (s.getVariable? height).isSome then
    some (s.pinned width height target).2
  else none

/-- The specification that a call solves, if it solves one. -/
def solvedBy? (s : Spec α) : Operation α → Option (Spec α)
  | .solve => some s
  | .minSize width height => s.queried? width height 0
  | .maxSize width height => s.queried? width height s.options.largestSize
  | _ => none

/-- A rejected query solves nothing, and gives the handle that is stale as the reason. -/
theorem sizeQuery_of_queried?_eq_none {s : Spec α} {width height : VariableId} {target : α}
    (h : s.queried? width height target = none) (unbounded : Size α) :
    s.sizeQuery width height target unbounded = .error (.invalidVariable
      (if (s.getVariable? width).isNone then width else height)) := by
  have hstale : ¬((s.getVariable? width).isSome && (s.getVariable? height).isSome) = true := by
    intro hlive
    unfold queried? at h
    rw [if_pos hlive] at h
    exact absurd h (by simp)
  unfold sizeQuery
  split
  · rfl
  · rename_i hwidth
    have hlive : (s.getVariable? width).isSome = true := by
      simpa [Option.isSome_iff_ne_none] using hwidth
    rw [if_pos]
    simpa [hlive] using hstale

theorem sizeQuery_of_queried?_eq_some {s u : Spec α} {width height : VariableId} {target : α}
    (h : s.queried? width height target = some u) (unbounded : Size α) :
    u = (s.pinned width height target).2 ∧
      ∃ size t, s.sizeQuery width height target unbounded = .ok (size, t) := by
  unfold queried? at h
  split at h
  · rename_i hlive
    rw [Bool.and_eq_true] at hlive
    exact ⟨(Option.some.inj h).symm, s.exists_sizeQuery hlive.1 hlive.2 target unbounded⟩
  · exact absurd h (by simp)

namespace Mirrors

/-- A query is answered on both sides, or rejected on both for the same reason. -/
theorem afterQuery (h : Mirrors ρ s t) (width height : VariableId) (target : α)
    (unbounded : Size α)
    (hroom : (t.afterQuery (t.sizeQuery width height target unbounded)).1.Addressable) :
    Mirrors ρ (s.afterQuery (s.sizeQuery width height target unbounded)).1
      (t.afterQuery (t.sizeQuery width height target unbounded)).1 ∧
    (s.queried? width height target = none →
      (t.afterQuery (t.sizeQuery width height target unbounded)).2
        = (s.afterQuery (s.sizeQuery width height target unbounded)).2.rename ρ) := by
  have hqueried : (t.queried? width height target).isSome
      = (s.queried? width height target).isSome := by
    unfold queried?
    rw [h.isSome_getVariable?, h.isSome_getVariable?]
    split
    · rw [Option.isSome_some, Option.isSome_some]
    · rfl
  cases hs : s.queried? width height target with
  | none =>
    have ht : t.queried? width height target = none := by
      rw [hs] at hqueried
      simpa using hqueried
    have hreason : (t.getVariable? width).isNone = (s.getVariable? width).isNone := by
      rw [← Option.not_isSome, ← Option.not_isSome, h.isSome_getVariable?]
    rw [sizeQuery_of_queried?_eq_none hs, sizeQuery_of_queried?_eq_none ht, hreason]
    exact ⟨h, fun _ => rfl⟩
  | some u =>
    obtain ⟨v, ht⟩ : ∃ v, t.queried? width height target = some v :=
      Option.isSome_iff_exists.1 (by rw [hqueried, hs]; rfl)
    obtain ⟨-, size, s', hs'⟩ := sizeQuery_of_queried?_eq_some hs unbounded
    obtain ⟨-, size', t', ht'⟩ := sizeQuery_of_queried?_eq_some ht unbounded
    rw [ht'] at hroom ⊢
    rw [hs']
    exact ⟨h.sizeQuery hs' ht' hroom, fun hnone => absurd hnone (by simp)⟩

/-- What a query solves on the one side mirrors what it solves on the other. -/
theorem queried? (h : Mirrors ρ s t) {width height : VariableId} {target : α} {u : Spec α}
    (hu : s.queried? width height target = some u)
    (hroom : ∀ v, t.queried? width height target = some v → v.Addressable) :
    ∃ v, t.queried? width height target = some v ∧ Mirrors ρ u v := by
  obtain ⟨rfl, -⟩ := sizeQuery_of_queried?_eq_some hu Size.zero
  have ht : t.queried? width height target = some (t.pinned width height target).2 := by
    unfold Spec.queried? at hu ⊢
    rw [h.isSome_getVariable?, h.isSome_getVariable?]
    split at hu
    · rename_i hlive
      rw [if_pos hlive]
    · exact absurd hu (by simp)
  exact ⟨_, ht, (h.pinned width height target (hroom _ ht)).2.2⟩

/-! ### Steps and runs -/

/-- **Every call keeps specifications the same that mirror each other**, unless it is a cascade in
another order; and a call that solves nothing is answered alike. -/
theorem perform (h : Mirrors ρ s t) (op : Operation α)
    (hroom : (t.perform (op.rename ρ)).1.Addressable) :
    (s.KeepsCascade ρ op → Mirrors ρ (s.perform op).1 (t.perform (op.rename ρ)).1) ∧
      (s.solvedBy? op = none →
        (t.perform (op.rename ρ)).2 = (s.perform op).2.rename ρ) := by
  have hedit : Mirrored ρ (s.perform op) (t.perform (op.rename ρ)) →
      (s.KeepsCascade ρ op → Mirrors ρ (s.perform op).1 (t.perform (op.rename ρ)).1) ∧
        (s.solvedBy? op = none →
          (t.perform (op.rename ρ)).2 = (s.perform op).2.rename ρ) := fun hmirrored =>
    ⟨fun _ => (hmirrored hroom).1, fun _ => (hmirrored hroom).2⟩
  cases op with
  | addVariable label =>
    refine hedit fun hroom => ?_
    obtain ⟨hhandle, hinserted⟩ := h.insertVariable (v := Variable.fresh label false)
      (w := Variable.fresh label false) rfl hroom.1
    exact ⟨hinserted, congrArg (fun k => Reply.variable ⟨k⟩) hhandle⟩
  | removeVariable id =>
    have hroom : (t.removeVariable id).2.Addressable := hroom
    show (s.KeepsCascade ρ (.removeVariable id) →
        Mirrors ρ (s.removeVariable id).2 (t.removeVariable id).2) ∧
      (_ → Reply.removed (t.removeVariable id).1 = Reply.removed (s.removeVariable id).1)
    unfold Spec.removeVariable at hroom ⊢
    rw [h.isUserVariable] at hroom ⊢
    split
    · rename_i hid
      rw [if_pos hid] at hroom
      have haddressable : t.Addressable := ((Evolves.foldl_zero evolves_drop _ t).trans
        (evolves_dropVariable _ id)).addressable hroom
      refine ⟨fun horder => ?_, fun _ => rfl⟩
      rw [h.mentioning haddressable horder]
      exact (h.foldl_drop _).dropVariable id
    · exact ⟨fun _ => h, fun _ => rfl⟩
  | setVariableLabel id label =>
    exact hedit (mirrored_afterChange h (h.alike_setVariableLabel id label))
  | setRange id lower upper =>
    exact hedit (mirrored_afterChange h (h.alike_setRange id lower upper))
  | setLower id lower => exact hedit (mirrored_afterChange h (h.alike_setLower id lower))
  | setUpper id upper => exact hedit (mirrored_afterChange h (h.alike_setUpper id upper))
  | addConstraint coefficients ids relation right above below =>
    exact hedit (mirrored_afterAddition h
      (h.alike_addConstraint coefficients ids relation right above below))
  | relate relation a b above below =>
    exact hedit (mirrored_afterAddition h
      (h.alike_addConstraint [1, -1] [a, b] relation 0 above below))
  | removeConstraint id =>
    refine hedit fun _ => ?_
    show Mirrors ρ (s.removeConstraint id).2 (t.removeConstraint (id.rename ρ)).2 ∧
      Reply.removed (t.removeConstraint (id.rename ρ)).1
        = Reply.removed (s.removeConstraint id).1
    unfold Spec.removeConstraint
    rw [h.isUserConstraint]
    split
    · exact ⟨h.drop id, rfl⟩
    · exact ⟨h, rfl⟩
  | setLeft id coefficients ids =>
    exact hedit (mirrored_afterChange h
      (h.alike_change id (h.alike_summands coefficients ids) fun _ _ => rfl))
  | setRelation id relation =>
    refine hedit (mirrored_afterChange h ((h.alike_checkConstraint id).bind fun _ _ _ => ?_))
    exact .ok fun hroom => h.mutate id (fun _ => rfl) hroom
  | setRight id right =>
    exact hedit (mirrored_afterChange h
      (h.alike_change id (alike_checkRight right) fun _ _ => rfl))
  | setPenalties id above below =>
    exact hedit (mirrored_afterChange h
      (h.alike_change id (alike_checkPenalties above below) fun _ _ => rfl))
  | setConstraintLabel id label =>
    exact hedit (mirrored_afterChange h (h.alike_setConstraintLabel id label))
  | solve => exact ⟨fun _ => h.solve, fun hnone => absurd hnone (by simp [solvedBy?])⟩
  | minSize width height =>
    obtain ⟨hmirrors, hanswer⟩ := h.afterQuery width height 0 Size.zero hroom
    exact ⟨fun _ => hmirrors, hanswer⟩
  | maxSize width height =>
    have hoptions : t.options.largestSize = s.options.largestSize := by rw [h.options]
    have hroom : (t.afterQuery (t.sizeQuery width height t.options.largestSize
      Size.unbounded)).1.Addressable := hroom
    show (_ → Mirrors ρ _ (t.afterQuery (t.sizeQuery width height t.options.largestSize
      Size.unbounded)).1) ∧ (_ → (t.afterQuery (t.sizeQuery width height t.options.largestSize
        Size.unbounded)).2 = _)
    rw [hoptions] at hroom ⊢
    obtain ⟨hmirrors, hanswer⟩ :=
      h.afterQuery width height s.options.largestSize Size.unbounded hroom
    exact ⟨fun _ => hmirrors, hanswer⟩

/-- **A history keeps specifications the same that mirror each other.** -/
theorem run (h : Mirrors ρ s t) {history : List (Operation α)}
    (horder : s.KeepsCascades ρ history)
    (hroom : (t.run (history.map (·.rename ρ))).Addressable) :
    Mirrors ρ (s.run history) (t.run (history.map (·.rename ρ))) := by
  induction history generalizing s t with
  | nil => exact h
  | cons op history ih =>
    have hroom : ((t.perform (op.rename ρ)).1.run (history.map (·.rename ρ))).Addressable := hroom
    have hfirst : (t.perform (op.rename ρ)).1.Addressable :=
      (evolves_run _ _).addressable hroom
    exact ih ((h.perform op hfirst).1 horder.1) horder.2 hroom

end Mirrors

end Spec

end ElasticLayout
