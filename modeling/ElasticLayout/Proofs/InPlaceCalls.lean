import ElasticLayout.Proofs.QueryTrace

/-!
# Calls that work in place

A call that is rejected gives no specification, so that nothing can have happened to the one the
caller has.  Here every call works on the specification in place, statement by statement, and what
it did before it is rejected stays done.  Only a check rejects a call, and every check stands before
the first change, so that a refused call has changed nothing: neither a cell, a generation or a free
slot of the stores, nor the options, the result or a value.

* `InPlace`, `InPlace.exec` -- calls in place, and what they do to a specification;
* `InPlace.check`, `InPlace.change`, `InPlace.make`, `InPlace.read` -- what calls are made of;
* `InPlace.perform` -- every call;
* `InPlace.Settles` -- a call in place either is rejected with nothing changed, or does what the
  call of the specification does; `InPlace.Settles.check` puts a check before the rest of a call;
* `InPlace.answer_perform` -- every call in place does what `Spec.perform` says;
* `Spec.run_accepted` -- a history leads where it leads without its refused calls;
* `InPlace.refused_call_changes_nothing` -- the main result.
-/

namespace ElasticLayout

variable {α β γ ι : Type}

/-- A call at work on a specification.  A rejection leaves the specification as it is by then. -/
abbrev InPlace (α : Type) := ExceptT (SpecError α) (StateM (Spec α))

/-- The call did nothing: it was rejected, or there was nothing that it could remove. -/
def Reply.isRefusal : Reply α → Bool
  | .rejected _ | .removed false => true
  | _ => false

theorem Reply.isRefusal_removed {done : Bool} :
    (Reply.removed done : Reply α).isRefusal = true ↔ done = false := by
  cases done <;> simp [Reply.isRefusal]

namespace InPlace

/-! ### What calls are made of -/

/-- The outcome of a call, and the specification that it leaves. -/
def exec (p : InPlace α β) (s : Spec α) : Except (SpecError α) β × Spec α := (p.run.run s).run

/-- Look something up. -/
def read (view : Spec α → β) : InPlace α β := fun s => (.ok (view s), s)

/-- Look something up, or be rejected.  Nothing else rejects a call. -/
def check (test : Spec α → Except (SpecError α) β) : InPlace α β := fun s => (test s, s)

/-- Ask for a condition. -/
def demand (condition : Spec α → Bool) (reason : SpecError α) : InPlace α Unit :=
  check fun s => if condition s then .ok () else .error reason

/-- Change the specification, with something to tell about it. -/
def make (f : Spec α → β × Spec α) : InPlace α β := fun s => (.ok (f s).1, (f s).2)

/-- Change the specification. -/
def change (f : Spec α → Spec α) : InPlace α Unit := make fun s => ((), f s)

/-- Make a change for each entry of a list. -/
def changeEach (f : Spec α → ι → Spec α) : List ι → InPlace α Unit
  | [] => return
  | i :: rest => do
    change (f · i)
    changeEach f rest

@[simp] theorem exec_pure (b : β) (s : Spec α) : exec (pure b : InPlace α β) s = (.ok b, s) := rfl

@[simp] theorem exec_read (view : Spec α → β) (s : Spec α) :
    exec (read view) s = (.ok (view s), s) := rfl

@[simp] theorem exec_check (test : Spec α → Except (SpecError α) β) (s : Spec α) :
    exec (check test) s = (test s, s) := rfl

@[simp] theorem exec_change (f : Spec α → Spec α) (s : Spec α) :
    exec (change f) s = (.ok (), f s) := rfl

/-- After a rejection nothing is done, and nothing is undone. -/
theorem exec_bind (p : InPlace α β) (q : β → InPlace α γ) (s : Spec α) :
    exec (p >>= q) s = match exec p s with
      | (.ok b, t) => exec (q b) t
      | (.error reason, t) => (.error reason, t) := by
  show (p s >>= fun x => ExceptT.bindCont q x.1 x.2).run = _
  show _ = match p s with
    | (.ok b, t) => exec (q b) t
    | (.error reason, t) => (.error reason, t)
  cases p s with
  | mk outcome t =>
    cases outcome with
    | ok b => rfl
    | error reason => rfl

/-- What was done by an accepted part is there for the next one. -/
theorem exec_bind_ok {p : InPlace α β} {s t : Spec α} {b : β} (h : exec p s = (.ok b, t))
    (q : β → InPlace α γ) : exec (p >>= q) s = exec (q b) t := by
  rw [exec_bind, h]

@[simp] theorem exec_changeEach (f : Spec α → ι → Spec α) (list : List ι) (s : Spec α) :
    exec (changeEach f list) s = (.ok (), list.foldl f s) := by
  induction list generalizing s with
  | nil => rfl
  | cons i rest ih => exact (exec_bind_ok (exec_change (f · i) s) _).trans (ih (f s i))

/-! ### The calls -/

section Calls

variable [Scalar α]

/-- Name a variable. -/
def setVariableLabel (id : VariableId) (label : String) : InPlace α Unit := do
  demand (fun s => (s.getVariable? id).isSome) (.invalidVariable id)
  change (·.modifyVariable id fun v => { v with label := some label })

/-- Restrict a variable to a range. -/
def setRange (id : VariableId) (lower upper : α) : InPlace α Unit := do
  demand (·.isUserVariable id) (.invalidVariable id)
  demand (fun _ => Spec.isRange lower upper) (.invalidRange lower upper)
  change (·.applyRange id lower upper)

/-- The variable behind a handle. -/
def lookUp (id : VariableId) : InPlace α (Variable α) :=
  check fun s => match s.getVariable? id with
    | some v => .ok v
    | none => .error (.invalidVariable id)

/-- Set the lower end of the range of a variable. -/
def setLower (id : VariableId) (lower : α) : InPlace α Unit := do
  let v ← lookUp id
  setRange id lower v.upper

/-- Set the upper end of the range of a variable. -/
def setUpper (id : VariableId) (upper : α) : InPlace α Unit := do
  let v ← lookUp id
  setRange id v.lower upper

/-- Remove a variable with every constraint that mentions it. -/
def removeVariable (id : VariableId) : InPlace α Bool := do
  if ← read (·.isUserVariable id) then
    changeEach Spec.drop (← read (·.mentioning id))
    change (·.dropVariable id)
    return true
  else return false

/-- Store a constraint, and give it a slack if it is a soft inequality. -/
def register (c : Constraint α) : InPlace α ConstraintId := do
  let id ← make (·.place c)
  change (·.attach id)
  return id

/-- Add a constraint. -/
def addConstraint (coefficients : List α) (ids : List VariableId) (relation : Relation)
    (right above below : α) : InPlace α ConstraintId := do
  let left ← check (·.summands coefficients ids)
  check fun _ => Spec.checkRight right
  check fun _ => Spec.checkPenalties above below
  register (.fresh left relation right above below .user)

/-- Remove a constraint with its slack. -/
def removeConstraint (id : ConstraintId) : InPlace α Bool := do
  if ← read (·.isUserConstraint id) then
    change (·.drop id)
    return true
  else return false

/-- Change a constraint; its slack is taken back before, and given after the change. -/
def mutate (id : ConstraintId) (edit : Constraint α → Constraint α) : InPlace α Unit := do
  change (·.detach id)
  match ← read (·.getConstraint? id) with
  | none => return
  | some c =>
    change (·.modifyConstraint id edit)
    change (·.release c.left)
    change (·.retain (edit c).left)
    change (·.attach id)

/-- Replace the left side of a constraint. -/
def setLeft (id : ConstraintId) (coefficients : List α) (ids : List VariableId) :
    InPlace α Unit := do
  check (·.checkConstraint id)
  let left ← check (·.summands coefficients ids)
  mutate id fun c => { c with left := mergeSummands left }

/-- Replace the comparison of a constraint. -/
def setRelation (id : ConstraintId) (relation : Relation) : InPlace α Unit := do
  check (·.checkConstraint id)
  mutate id fun c => { c with relation }

/-- Replace the right side of a constraint. -/
def setRight (id : ConstraintId) (right : α) : InPlace α Unit := do
  check (·.checkConstraint id)
  check fun _ => Spec.checkRight right
  mutate id fun c => { c with right }

/-- Replace the penalties of a constraint. -/
def setPenalties (id : ConstraintId) (above below : α) : InPlace α Unit := do
  check (·.checkConstraint id)
  check fun _ => Spec.checkPenalties above below
  mutate id fun c => { c with penaltyAbove := above, penaltyBelow := below }

/-- Name a constraint, which may be an internal one. -/
def setConstraintLabel (id : ConstraintId) (label : String) : InPlace α Unit := do
  demand (fun s => (s.getConstraint? id).isSome) (.invalidConstraint id)
  change (·.modifyConstraint id fun c => { c with label := some label })

/-- Solve, and tell how that ended. -/
def solve : InPlace α ResultCode := do
  change Spec.solve
  read (·.result)

/-- Pull a variable towards a target, as strongly as the options say. -/
def pin (id : VariableId) (target : α) : InPlace α ConstraintId := do
  let penalty ← read (·.options.sizePenalty)
  register (.fresh [⟨1, id⟩] .eq target penalty penalty .user)

/-- Solve with all soft constraints suspended and two variables pulled towards a target, restore the
constraints, and read the size off. -/
def pull (width height : VariableId) (target : α) (unbounded : Size α) : InPlace α (Size α) := do
  let suspended ← read (·.suspendable)
  changeEach (Spec.setSuspended true) suspended
  let heightPin ← pin height target
  let widthPin ← pin width target
  let code ← solve
  change (·.drop heightPin)
  change (·.drop widthPin)
  changeEach (Spec.setSuspended false) suspended
  if code = .unbounded then return unbounded
  read fun s => ⟨(s.value? width).getD Scalar.nan, (s.value? height).getD Scalar.nan⟩

/-- Ask for the size of two variables that are pulled towards a target. -/
def sizeQuery (width height : VariableId) (target : α) (unbounded : Size α) :
    InPlace α (Size α) := do
  let _ ← lookUp width
  let _ ← lookUp height
  pull width height target unbounded

/-- Every call in place. -/
def perform : Operation α → InPlace α (Reply α)
  | .addVariable label => return .variable (← make (·.addVariable label))
  | .removeVariable id => return .removed (← removeVariable id)
  | .setVariableLabel id label => do setVariableLabel id label; return .changed
  | .setRange id lower upper => do setRange id lower upper; return .changed
  | .setLower id lower => do setLower id lower; return .changed
  | .setUpper id upper => do setUpper id upper; return .changed
  | .addConstraint coefficients ids relation right above below =>
    return .constraint (← addConstraint coefficients ids relation right above below)
  | .relate relation a b above below =>
    return .constraint (← addConstraint [1, -1] [a, b] relation 0 above below)
  | .removeConstraint id => return .removed (← removeConstraint id)
  | .setLeft id coefficients ids => do setLeft id coefficients ids; return .changed
  | .setRelation id relation => do setRelation id relation; return .changed
  | .setRight id right => do setRight id right; return .changed
  | .setPenalties id above below => do setPenalties id above below; return .changed
  | .setConstraintLabel id label => do setConstraintLabel id label; return .changed
  | .solve => return .solved (← solve)
  | .minSize width height => return .size (← sizeQuery width height 0 Size.zero)
  | .maxSize width height => do
    let target ← read (·.options.largestSize)
    return .size (← sizeQuery width height target Size.unbounded)

omit [Scalar α] in
/-- The specification that a call in place leaves, and the answer to the call. -/
def answer (p : InPlace α (Reply α)) (s : Spec α) : Spec α × Reply α :=
  match exec p s with
  | (.ok reply, t) => (t, reply)
  | (.error reason, t) => (t, .rejected reason)

end Calls

/-! ### Rejected, or accepted and done -/

/-- In place, a call either is rejected and leaves the specification that it began with, or is
accepted and leaves the one that it should, which is told by the result of the same call without
side effects. -/
def Settles {ρ : Type} (told : ρ → β × Spec α) (p : InPlace α β) (s : Spec α)
    (r : Except (SpecError α) ρ) : Prop :=
  exec p s = match r with
    | .ok x => (.ok (told x).1, (told x).2)
    | .error reason => (.error reason, s)

section Rules

variable {ρ : Type} {told : ρ → γ × Spec α} {s : Spec α}

/-- A check before which nothing was changed. -/
theorem Settles.check {test : Spec α → Except (SpecError α) β} {q : β → InPlace α γ}
    {r : β → Except (SpecError α) ρ} (h : ∀ b, test s = .ok b → Settles told (q b) s (r b)) :
    Settles told (InPlace.check test >>= q) s (test s >>= r) := by
  unfold Settles
  rw [exec_bind, exec_check]
  cases htest : test s with
  | error reason => rfl
  | ok b => exact h b htest

/-- A condition before which nothing was changed. -/
theorem Settles.demand {condition : Spec α → Bool} {reason : SpecError α} {q : Unit → InPlace α γ}
    {r : Except (SpecError α) ρ} (h : condition s = true → Settles told (q ()) s r) :
    Settles told (InPlace.demand condition reason >>= q) s
      (if condition s then r else .error reason) := by
  unfold Settles InPlace.demand
  rw [exec_bind, exec_check]
  by_cases hcondition : condition s = true
  · rw [if_pos hcondition, if_pos hcondition]
    exact h hcondition
  · rw [if_neg hcondition, if_neg hcondition]

/-- A variable looked up before anything was changed. -/
theorem Settles.lookUp {id : VariableId} {q : Variable α → InPlace α γ}
    {r : Variable α → Except (SpecError α) ρ}
    (h : ∀ v, s.getVariable? id = some v → Settles told (q v) s (r v)) :
    Settles told (InPlace.lookUp id >>= q) s (match s.getVariable? id with
      | some v => r v
      | none => .error (.invalidVariable id)) := by
  unfold Settles InPlace.lookUp
  rw [exec_bind, exec_check]
  cases hv : s.getVariable? id with
  | none => rfl
  | some v => exact h v hv

/-- The changes at the end of a call, none of which can be rejected. -/
theorem Settles.of_exec {p : InPlace α γ} {x : ρ} (h : exec p s = (.ok (told x).1, (told x).2)) :
    Settles told p s (.ok x) := h

end Rules

/-! ### Every call settles -/

section Calls

variable [Scalar α]

omit [Scalar α] in
theorem settles_setVariableLabel (s : Spec α) (id : VariableId) (label : String) :
    Settles ((), ·) (setVariableLabel id label) s (s.setVariableLabel id label) :=
  .demand fun _ => .of_exec rfl

theorem settles_setRange (s : Spec α) (id : VariableId) (lower upper : α) :
    Settles ((), ·) (setRange id lower upper) s (s.setRange id lower upper) :=
  .demand fun _ => .demand fun _ => .of_exec rfl

theorem settles_setLower (s : Spec α) (id : VariableId) (lower : α) :
    Settles ((), ·) (setLower id lower) s (s.setLower id lower) :=
  .lookUp fun v _ => settles_setRange s id lower v.upper

theorem settles_setUpper (s : Spec α) (id : VariableId) (upper : α) :
    Settles ((), ·) (setUpper id upper) s (s.setUpper id upper) :=
  .lookUp fun v _ => settles_setRange s id v.lower upper

omit [Scalar α] in
theorem exec_removeVariable (id : VariableId) (s : Spec α) :
    exec (removeVariable id) s = (.ok (s.removeVariable id).1, (s.removeVariable id).2) := by
  unfold removeVariable Spec.removeVariable
  rw [exec_bind_ok (exec_read _ s)]
  cases s.isUserVariable id with
  | false => rfl
  | true =>
    rw [if_pos rfl, if_pos rfl, exec_bind_ok (exec_read _ s),
      exec_bind_ok (exec_changeEach Spec.drop _ s), exec_bind_ok (exec_change _ _)]
    rfl

theorem exec_register (c : Constraint α) (s : Spec α) :
    exec (register c) s = (.ok (s.register c).1, (s.register c).2) := rfl

theorem settles_addConstraint (s : Spec α) (coefficients : List α) (ids : List VariableId)
    (relation : Relation) (right above below : α) :
    Settles id (addConstraint coefficients ids relation right above below) s
      (s.addConstraint coefficients ids relation right above below) :=
  .check fun _ _ => .check fun _ _ => .check fun _ _ => .of_exec (exec_register _ s)

omit [Scalar α] in
theorem exec_removeConstraint (id : ConstraintId) (s : Spec α) :
    exec (removeConstraint id) s = (.ok (s.removeConstraint id).1, (s.removeConstraint id).2) := by
  unfold removeConstraint Spec.removeConstraint
  rw [exec_bind_ok (exec_read _ s)]
  cases s.isUserConstraint id with
  | false => rfl
  | true => rfl

/-- The slack is taken back before the change; nothing can be rejected from there on. -/
theorem exec_mutate (id : ConstraintId) (edit : Constraint α → Constraint α) (s : Spec α) :
    exec (mutate id edit) s = (.ok (), s.mutate id edit) := by
  unfold mutate Spec.mutate
  rw [exec_bind_ok (exec_change _ s), exec_bind_ok (exec_read _ _)]
  dsimp only
  cases (s.detach id).getConstraint? id with
  | none => rfl
  | some c => rfl

theorem settles_setLeft (s : Spec α) (id : ConstraintId) (coefficients : List α)
    (ids : List VariableId) :
    Settles ((), ·) (setLeft id coefficients ids) s (s.setLeft id coefficients ids) :=
  .check fun _ _ => .check fun _ _ => .of_exec (exec_mutate id _ s)

theorem settles_setRelation (s : Spec α) (id : ConstraintId) (relation : Relation) :
    Settles ((), ·) (setRelation id relation) s (s.setRelation id relation) :=
  .check fun _ _ => .of_exec (exec_mutate id _ s)

theorem settles_setRight (s : Spec α) (id : ConstraintId) (right : α) :
    Settles ((), ·) (setRight id right) s (s.setRight id right) :=
  .check fun _ _ => .check fun _ _ => .of_exec (exec_mutate id _ s)

theorem settles_setPenalties (s : Spec α) (id : ConstraintId) (above below : α) :
    Settles ((), ·) (setPenalties id above below) s (s.setPenalties id above below) :=
  .check fun _ _ => .check fun _ _ => .of_exec (exec_mutate id _ s)

omit [Scalar α] in
theorem settles_setConstraintLabel (s : Spec α) (id : ConstraintId) (label : String) :
    Settles ((), ·) (setConstraintLabel id label) s (s.setConstraintLabel id label) :=
  .demand fun _ => .of_exec rfl

theorem exec_pin (id : VariableId) (target : α) (s : Spec α) :
    exec (pin id target) s = (.ok (s.pin id target).1, (s.pin id target).2) := rfl

theorem exec_solve (s : Spec α) : exec solve s = (.ok s.solve.result, s.solve) := rfl

/-- Once both variables are found nothing is rejected.  The code of the solve is kept by all that
comes after it, so that it may be looked at before or after. -/
theorem settles_pull {s : Spec α} {width height : VariableId} (target : α) (unbounded : Size α)
    (hwidth : (s.getVariable? width).isNone = false)
    (hheight : (s.getVariable? height).isNone = false) :
    Settles id (pull width height target unbounded) s
      (s.sizeQuery width height target unbounded) := by
  unfold Spec.sizeQuery
  rw [hwidth, hheight, if_neg Bool.false_ne_true, if_neg Bool.false_ne_true]
  have hpinned : s.pinned width height target
      = let q := (s.suspendable.foldl (Spec.setSuspended true) s).pin height target
        let r := q.2.pin width target
        ((q.1, r.1), r.2) := rfl
  have hcode (t : Spec α) (k₁ k₂ : ConstraintId) :
      (s.suspendable.foldl (Spec.setSuspended false) ((t.solve.drop k₁).drop k₂)).result
        = t.solve.result := by
    rw [Spec.foldl_keeps Spec.result (Spec.result_setSuspended false), Spec.result_drop,
      Spec.result_drop]
  unfold Settles pull
  rw [hpinned]
  dsimp only [id]
  rw [exec_bind_ok (exec_read _ s), exec_bind_ok (exec_changeEach _ _ s),
    exec_bind_ok (exec_pin _ _ _), exec_bind_ok (exec_pin _ _ _), exec_bind_ok (exec_solve _),
    exec_bind_ok (exec_change _ _), exec_bind_ok (exec_change _ _),
    exec_bind_ok (exec_changeEach _ _ _)]
  generalize (s.suspendable.foldl (Spec.setSuspended true) s).pin height target = q
  generalize q.2.pin width target = r
  rw [hcode]
  by_cases hunbounded : r.2.solve.result = .unbounded
  · rw [if_pos hunbounded, if_pos hunbounded, exec_pure]
  · rw [if_neg hunbounded, if_neg hunbounded, exec_read]

/-- Both handles are looked up first. -/
theorem sizeQuery_eq_lookUp (s : Spec α) (width height : VariableId) (target : α)
    (unbounded : Size α) : s.sizeQuery width height target unbounded =
      match s.getVariable? width with
      | some _ => (match s.getVariable? height with
        | some _ => s.sizeQuery width height target unbounded
        | none => .error (.invalidVariable height))
      | none => .error (.invalidVariable width) := by
  cases hwidth : s.getVariable? width with
  | none =>
    unfold Spec.sizeQuery
    rw [hwidth]
    rfl
  | some v =>
    cases hheight : s.getVariable? height with
    | none =>
      unfold Spec.sizeQuery
      rw [hwidth, hheight]
      rfl
    | some w => rfl

theorem settles_sizeQuery (s : Spec α) (width height : VariableId) (target : α)
    (unbounded : Size α) :
    Settles id (sizeQuery width height target unbounded) s
      (s.sizeQuery width height target unbounded) := by
  rw [sizeQuery_eq_lookUp]
  exact .lookUp fun _ hwidth => .lookUp fun _ hheight =>
    settles_pull target unbounded (by rw [hwidth]; rfl) (by rw [hheight]; rfl)

/-! ### Answers -/

omit [Scalar α] in
/-- A call that was accepted is answered with what it did, and the specification is the new one; one
that was rejected leaves the specification it began with. -/
theorem answer_of_settles {ρ : Type} {told : ρ → β × Spec α} {p : InPlace α β} {s : Spec α}
    {r : Except (SpecError α) ρ} (h : Settles told p s r) (reply : β → Reply α) :
    answer (do return reply (← p)) s = match r with
      | .ok x => ((told x).2, reply (told x).1)
      | .error reason => (s, .rejected reason) := by
  unfold Settles at h
  unfold answer
  rw [exec_bind, h]
  cases r with
  | ok x => rfl
  | error reason => rfl

omit [Scalar α] in
theorem answer_change {p : InPlace α Unit} {s : Spec α} {r : Except (SpecError α) (Spec α)}
    (h : Settles ((), ·) p s r) : answer (do p; return .changed) s = s.afterChange r := by
  rw [answer_of_settles h]
  cases r with
  | ok t => rfl
  | error reason => rfl

omit [Scalar α] in
theorem answer_addition {p : InPlace α ConstraintId} {s : Spec α}
    {r : Except (SpecError α) (ConstraintId × Spec α)} (h : Settles id p s r) :
    answer (do return .constraint (← p)) s = s.afterAddition r := by
  rw [answer_of_settles h]
  cases r with
  | ok t => rfl
  | error reason => rfl

omit [Scalar α] in
theorem answer_query {p : InPlace α (Size α)} {s : Spec α}
    {r : Except (SpecError α) (Size α × Spec α)} (h : Settles id p s r) :
    answer (do return .size (← p)) s = s.afterQuery r := by
  rw [answer_of_settles h]
  cases r with
  | ok t => rfl
  | error reason => rfl

/-- **Every call in place answers as the call without side effects**, and leaves the specification
that it gives. -/
theorem answer_perform (s : Spec α) (op : Operation α) : answer (perform op) s = s.perform op := by
  cases op with
  | addVariable label => rfl
  | removeVariable id =>
    unfold perform answer
    rw [exec_bind_ok (exec_removeVariable id s)]
    rfl
  | setVariableLabel id label => exact answer_change (settles_setVariableLabel s id label)
  | setRange id lower upper => exact answer_change (settles_setRange s id lower upper)
  | setLower id lower => exact answer_change (settles_setLower s id lower)
  | setUpper id upper => exact answer_change (settles_setUpper s id upper)
  | addConstraint coefficients ids relation right above below =>
    exact answer_addition (settles_addConstraint s coefficients ids relation right above below)
  | relate relation a b above below =>
    exact answer_addition (settles_addConstraint s [1, -1] [a, b] relation 0 above below)
  | removeConstraint id =>
    unfold perform answer
    rw [exec_bind_ok (exec_removeConstraint id s)]
    rfl
  | setLeft id coefficients ids => exact answer_change (settles_setLeft s id coefficients ids)
  | setRelation id relation => exact answer_change (settles_setRelation s id relation)
  | setRight id right => exact answer_change (settles_setRight s id right)
  | setPenalties id above below => exact answer_change (settles_setPenalties s id above below)
  | setConstraintLabel id label => exact answer_change (settles_setConstraintLabel s id label)
  | solve => rfl
  | minSize width height => exact answer_query (settles_sizeQuery s width height 0 Size.zero)
  | maxSize width height =>
    have hread : answer (perform (.maxSize width height)) s
        = answer (do return .size (← sizeQuery width height s.options.largestSize Size.unbounded))
          s := by
      unfold answer perform
      rw [exec_bind_ok (exec_read _ s)]
    rw [hread]
    exact answer_query (settles_sizeQuery s width height s.options.largestSize Size.unbounded)

end Calls

end InPlace

/-! ### Refusals -/

namespace Spec

theorem fst_afterChange_of_isRefusal {s : Spec α} {r : Except (SpecError α) (Spec α)}
    (h : (s.afterChange r).2.isRefusal = true) : (s.afterChange r).1 = s := by
  cases r with
  | ok t => exact absurd h Bool.false_ne_true
  | error reason => rfl

theorem fst_afterAddition_of_isRefusal {s : Spec α}
    {r : Except (SpecError α) (ConstraintId × Spec α)}
    (h : (s.afterAddition r).2.isRefusal = true) : (s.afterAddition r).1 = s := by
  cases r with
  | ok t => exact absurd h Bool.false_ne_true
  | error reason => rfl

theorem fst_afterQuery_of_isRefusal {s : Spec α} {r : Except (SpecError α) (Size α × Spec α)}
    (h : (s.afterQuery r).2.isRefusal = true) : (s.afterQuery r).1 = s := by
  cases r with
  | ok t => exact absurd h Bool.false_ne_true
  | error reason => rfl

theorem snd_removeVariable_of_false {s : Spec α} {id : VariableId}
    (h : (s.removeVariable id).1 = false) : (s.removeVariable id).2 = s := by
  unfold removeVariable at h ⊢
  split
  · rename_i hid
    exact absurd h (by simp [hid])
  · rfl

theorem snd_removeConstraint_of_false {s : Spec α} {id : ConstraintId}
    (h : (s.removeConstraint id).1 = false) : (s.removeConstraint id).2 = s := by
  unfold removeConstraint at h ⊢
  split
  · rename_i hid
    exact absurd h (by simp [hid])
  · rfl

variable [Scalar α]

/-- A refused call leaves the specification as it is. -/
theorem fst_perform_of_isRefusal {s : Spec α} {op : Operation α}
    (h : (s.perform op).2.isRefusal = true) : (s.perform op).1 = s := by
  cases op with
  | addVariable label => exact absurd h Bool.false_ne_true
  | removeVariable id => exact snd_removeVariable_of_false (Reply.isRefusal_removed.1 h)
  | removeConstraint id => exact snd_removeConstraint_of_false (Reply.isRefusal_removed.1 h)
  | addConstraint coefficients ids relation right above below =>
    exact fst_afterAddition_of_isRefusal h
  | relate relation a b above below => exact fst_afterAddition_of_isRefusal h
  | solve => exact absurd h Bool.false_ne_true
  | minSize width height => exact fst_afterQuery_of_isRefusal h
  | maxSize width height => exact fst_afterQuery_of_isRefusal h
  | _ => exact fst_afterChange_of_isRefusal h

/-- The calls of a history that are not refused, when they are made one after the other. -/
def accepted (s : Spec α) : List (Operation α) → List (Operation α)
  | [] => []
  | op :: history =>
    let (t, reply) := s.perform op
    if reply.isRefusal then t.accepted history else op :: t.accepted history

/-- **Refused calls leave no trace**: a history leads where it leads without them. -/
theorem run_accepted (history : List (Operation α)) (s : Spec α) :
    s.run (s.accepted history) = s.run history := by
  induction history generalizing s with
  | nil => rfl
  | cons op history ih =>
    show s.run (if (s.perform op).2.isRefusal then (s.perform op).1.accepted history
      else op :: (s.perform op).1.accepted history) = (s.perform op).1.run history
    split
    · rename_i hrefused
      rw [fst_perform_of_isRefusal hrefused]
      exact ih s
    · exact ih (s.perform op).1

end Spec

namespace InPlace

/-- **A refused call changes nothing.**  Whatever the specification and the arguments are, a call in
place answers as the call of the specification does and leaves the specification that it gives; and
if it is rejected, or finds nothing to remove, then the specification it leaves is the one it began
with: the cells of both stores with their generations and free slots, the options, the result and
every value. -/
theorem refused_call_changes_nothing [Scalar α] (s : Spec α) (op : Operation α) :
    answer (perform op) s = s.perform op ∧
      ((answer (perform op) s).2.isRefusal = true → (answer (perform op) s).1 = s) := by
  refine ⟨answer_perform s op, fun h => ?_⟩
  rw [answer_perform] at h ⊢
  exact Spec.fst_perform_of_isRefusal h

/-- An elastic constraint that is to mention its own slack: the call is rejected before the slack is
taken back.  A size query with one live handle is rejected before a pin is placed. -/
theorem refused_call_changes_nothing_elastic :
    let s : Spec Float := ({ options := .default } : Spec Float).run [.addVariable none,
      .addConstraint [1] [⟨⟨0, 0⟩⟩] .le 100 4 0]
    s.Reachable ∧
      (answer (perform (.setLeft ⟨⟨0, 0⟩⟩ [1] [⟨⟨1, 0⟩⟩])) s).1 = s ∧
      (answer (perform (.minSize ⟨⟨0, 0⟩⟩ ⟨⟨2, 0⟩⟩)) s).1 = s ∧
      (answer (perform (.removeVariable ⟨⟨1, 0⟩⟩)) s).1 = s :=
  ⟨Spec.reachable_run _ (by decide), (refused_call_changes_nothing _ _).2 (by decide),
    (refused_call_changes_nothing _ _).2 (by decide),
    (refused_call_changes_nothing _ _).2 (by decide)⟩

end InPlace

end ElasticLayout
