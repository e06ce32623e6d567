import ElasticLayout.Proofs.Evolution

/-!
# Checked stores

The changes that a specification makes on its own behalf, once more with checks: an index taken from
the stack of vacant indices has to belong to a vacant cell, and the number of entries must not be
zero when an entry goes.  A checked change gives none where such a check fails.  In tidy stores no
check fails.

* `Checked.insert`, `Checked.erase` -- entries of a store;
* `Checked.place`, `Checked.withdraw`, `Checked.dropVariable` -- constraints that own nothing, and
  variables with their bounds;
* `Checked.syncBound`, `Checked.applyRange`, `Checked.attachSlack` -- ranges and slacks;
* `Checked.register`, `Checked.drop` -- constraints of any kind;
* `Checked.register_eq`, `Checked.drop_eq` and the `_eq` lemmas before them -- no check fails.
-/

namespace ElasticLayout

variable {α : Type}

namespace Checked

/-! ### Entries -/

section Entries

variable {β : Type}

/-- Store an entry; the cell that is to be refilled has to be vacant. -/
def insert (store : SlotStore β) (value : β) : Option (Slot × SlotStore β) :=
  match store.free with
  | [] => some (store.append value)
  | index :: rest =>
    match store.cells[index.toNat]? with
    | some (.vacant generation) =>
      some (⟨index, generation⟩,
        ⟨store.cells.setIfInBounds index.toNat (.occupied generation value), rest, store.size + 1⟩)
    | _ => none

/-- Remove the entry behind a handle, if there is one; then the count must not be zero already. -/
def erase (store : SlotStore β) (slot : Slot) : Option (SlotStore β) :=
  if store.contains slot then
    if 0 < store.size then some (store.erase slot) else none
  else some store

/-- The stack of a tidy store lists vacant cells only. -/
theorem insert_eq {store : SlotStore β} (h : store.Tidy) (value : β) :
    insert store value = some (store.insert value) := by
  obtain ⟨hfree, heq⟩ | ⟨index, rest, g, hfree, hg, heq⟩ := store.insert_cases h value
  · unfold insert
    rw [hfree, heq]
  · unfold insert
    rw [hfree, heq]
    dsimp only
    rw [hg]

-- A stack that lists an index without a cell.
example : insert (⟨#[], [0], 0⟩ : SlotStore Unit) () = none := rfl

/-- A tidy store with a live handle counts an entry. -/
theorem erase_eq {store : SlotStore β} (h : store.Tidy) (slot : Slot) :
    erase store slot = some (store.erase slot) := by
  unfold erase
  split
  · rename_i hlive
    rw [if_pos (h.size_pos hlive)]
  · rename_i hstale
    rw [SlotStore.erase, if_neg hstale]

-- A count that has lost its entry.
example : erase (⟨#[.occupied 0 ()], [], 0⟩ : SlotStore Unit) ⟨0, 0⟩ = none := rfl

end Entries

/-! ### Constraints that own nothing -/

/-- Store a constraint and count its references. -/
def place (s : Spec α) (c : Constraint α) : Option (ConstraintId × Spec α) := do
  let s := s.retain c.left
  let (slot, constraintStore) ← insert s.constraintStore c
  return (⟨slot⟩, { s with constraintStore })

/-- Remove a constraint that owns nothing, and its references. -/
def withdraw (s : Spec α) (id : ConstraintId) : Option (Spec α) :=
  match s.getConstraint? id with
  | none => some s
  | some c => do
    let constraintStore ← erase s.constraintStore id.slot
    return { s with constraintStore }.release c.left

/-- Remove a variable with its bound constraints. -/
def dropVariable (s : Spec α) (id : VariableId) : Option (Spec α) :=
  match s.getVariable? id with
  | none => some s
  | some v => do
    let s ← v.bounds.foldlM withdraw s
    let variableStore ← erase s.variableStore id.slot
    return { s with variableStore }

theorem place_eq {s : Spec α} (hs : s.Tidy) (c : Constraint α) :
    place s c = some (s.place c) := by
  unfold place
  dsimp only
  rw [insert_eq ((s.evolves_retain c.left).tidy hs).2]
  rfl

theorem withdraw_eq {s : Spec α} (hs : s.Tidy) (id : ConstraintId) :
    withdraw s id = some (s.withdraw id) := by
  unfold withdraw Spec.withdraw
  cases s.getConstraint? id with
  | none => rfl
  | some c =>
    dsimp only
    rw [erase_eq hs.2]
    rfl

theorem foldlM_withdraw_eq (ids : List ConstraintId) : ∀ {s : Spec α}, s.Tidy →
    ids.foldlM withdraw s = some (ids.foldl Spec.withdraw s) := by
  induction ids with
  | nil => exact fun _ => rfl
  | cons id rest ih =>
    intro s hs
    rw [List.foldlM_cons, withdraw_eq hs]
    exact ih ((s.evolves_withdraw id).tidy hs)

theorem dropVariable_eq {s : Spec α} (hs : s.Tidy) (id : VariableId) :
    dropVariable s id = some (s.dropVariable id) := by
  unfold dropVariable Spec.dropVariable
  cases s.getVariable? id with
  | none => rfl
  | some v =>
    have hwithdrawn : (v.bounds.foldl Spec.withdraw s).Tidy :=
      (Spec.Evolves.foldl_zero Spec.evolves_withdraw v.bounds s).tidy hs
    dsimp only
    rw [foldlM_withdraw_eq _ hs]
    dsimp only [Option.bind_eq_bind, Option.bind_some]
    rw [erase_eq hwithdrawn.1]
    rfl

/-! ### Slacks taken back -/

/-- Take the slack of an elastic constraint back. -/
def detach (s : Spec α) (id : ConstraintId) : Option (Spec α) :=
  match (s.getConstraint? id).bind fun c => c.elastic.map fun e => (c, e) with
  | none => some s
  | some (c, e) => do
    let (removed, kept) := c.left.partition (·.var == e.slack)
    let s := s.modifyConstraint id fun c => { c with elastic := none, left := kept }
    let s ← withdraw (s.release removed) e.penalty
    dropVariable s e.slack

/-- Remove a constraint with all it owns. -/
def drop (s : Spec α) (id : ConstraintId) : Option (Spec α) := do
  let s ← detach s id
  withdraw s id

theorem detach_eq {s : Spec α} (hs : s.Tidy) (id : ConstraintId) :
    detach s id = some (s.detach id) := by
  unfold detach Spec.detach
  cases (s.getConstraint? id).bind fun c => c.elastic.map fun e => (c, e) with
  | none => rfl
  | some owner =>
    have hreleased := fun f terms =>
      ((s.evolves_modifyConstraint id f).trans (Spec.evolves_release _ terms)).tidy hs
    dsimp only
    rw [withdraw_eq (hreleased _ _)]
    exact dropVariable_eq ((Spec.evolves_withdraw _ _).tidy (hreleased _ _)) _

theorem drop_eq {s : Spec α} (hs : s.Tidy) (id : ConstraintId) :
    drop s id = some (s.drop id) := by
  unfold drop
  rw [detach_eq hs]
  exact withdraw_eq ((s.evolves_detach id).tidy hs) _

/-! ### Ranges and slacks -/

variable [Scalar α]

/-- Add, move or remove the bound constraint of one end of a range. -/
def syncBound (s : Spec α) (id : VariableId) (existing : Option ConstraintId) (relation : Relation)
    (limit : α) (needed : Bool) : Option (Option ConstraintId × Spec α) :=
  match existing, needed with
  | some bound, true =>
    some (some bound, s.modifyConstraint bound fun c => { c with right := limit })
  | some bound, false => do
    let s ← withdraw s bound
    return (none, s)
  | none, true => do
    let (bound, s) ← place s (.fresh [⟨1, id⟩] relation limit 0 0 (.bound id))
    return (some bound, s)
  | none, false => some (none, s)

/-- Set the range of a variable, and bring its bound constraints in step. -/
def applyRange (s : Spec α) (id : VariableId) (lower upper : α) : Option (Spec α) :=
  match s.getVariable? id with
  | none => some s
  | some v => do
    let s := s.modifyVariable id fun v => { v with lower, upper }
    let (lowerBound, s) ←
      syncBound s id v.lowerBound .ge lower (Variable.defaultLower < lower)
    let (upperBound, s) ←
      syncBound s id v.upperBound .le upper (upper < Variable.defaultUpper)
    return s.modifyVariable id fun v => { v with lowerBound, upperBound }

/-- Give a constraint a slack with some factor. -/
def attachSlack (s : Spec α) (id : ConstraintId) (c : Constraint α) (coefficient : α) :
    Option (Spec α) := do
  let (slot, variableStore) ← insert s.variableStore (Variable.fresh none true : Variable α)
  let slack : VariableId := ⟨slot⟩
  let s ← applyRange { s with variableStore } slack 0 Variable.slackUpper
  let term : Summand α := ⟨coefficient, slack⟩
  let s := (s.modifyConstraint id fun c => { c with left := c.left ++ [term] }).retain [term]
  let (penalty, s) ← place s
    (.fresh [⟨1, slack⟩] .eq 0 c.penaltyAbove c.penaltyBelow (.slackPenalty id))
  return s.modifyConstraint id fun c => { c with elastic := some ⟨slack, coefficient, penalty⟩ }

/-- Give a soft inequality its slack, unless it has one. -/
def attach (s : Spec α) (id : ConstraintId) : Option (Spec α) :=
  match s.getConstraint? id with
  | none => some s
  | some c =>
    if c.elastic.isSome || !c.isSoftInequality then some s
    else match (c.relation.slackCoefficient? : Option α) with
      | none => some s
      | some coefficient => attachSlack s id c coefficient

/-- Store a constraint, and give it a slack if it is a soft inequality. -/
def register (s : Spec α) (c : Constraint α) : Option (ConstraintId × Spec α) := do
  let (id, s) ← place s c
  let s ← attach s id
  return (id, s)

theorem syncBound_eq {s : Spec α} (hs : s.Tidy) (id : VariableId) (existing : Option ConstraintId)
    (relation : Relation) (limit : α) (needed : Bool) :
    syncBound s id existing relation limit needed
      = some (s.syncBound id existing relation limit needed) := by
  unfold syncBound Spec.syncBound
  split
  · rfl
  · rw [withdraw_eq hs]
    rfl
  · rw [place_eq hs]
    rfl
  · rfl

theorem applyRange_eq {s : Spec α} (hs : s.Tidy) (id : VariableId) (lower upper : α) :
    applyRange s id lower upper = some (s.applyRange id lower upper) := by
  unfold applyRange Spec.applyRange
  cases s.getVariable? id with
  | none => rfl
  | some v =>
    have hranged := (s.evolves_modifyVariable id fun v => { v with lower, upper }).tidy hs
    dsimp only
    rw [syncBound_eq hranged]
    dsimp only [Option.bind_eq_bind, Option.bind_some]
    rw [syncBound_eq ((Spec.evolves_syncBound _ _ _ _ _ _).tidy hranged)]
    rfl

theorem attachSlack_eq {s : Spec α} (hs : s.Tidy) (id : ConstraintId) (c : Constraint α)
    (coefficient : α) : attachSlack s id c coefficient = some (s.attachSlack id c coefficient) := by
  have hinserted := (s.evolves_insertVariable (Variable.fresh none true)).tidy hs
  unfold attachSlack
  rw [insert_eq hs.1]
  dsimp only [Option.bind_eq_bind, Option.bind_some]
  rw [applyRange_eq hinserted]
  dsimp only [Option.bind_some]
  have hmentioned := fun (s : Spec α) slack term =>
    (((s.evolves_applyRange slack 0 Variable.slackUpper).trans
      (Spec.evolves_modifyConstraint _ id fun c => { c with left := c.left ++ [term] })).trans
      (Spec.evolves_retain _ [term])).tidy
  rw [place_eq (hmentioned _ _ _ hinserted)]
  rfl

theorem attach_eq {s : Spec α} (hs : s.Tidy) (id : ConstraintId) :
    attach s id = some (s.attach id) := by
  unfold attach Spec.attach
  cases s.getConstraint? id with
  | none => rfl
  | some c =>
    dsimp only
    split
    · rfl
    · cases (c.relation.slackCoefficient? : Option α) with
      | none => rfl
      | some coefficient => exact attachSlack_eq hs _ _ _

theorem register_eq {s : Spec α} (hs : s.Tidy) (c : Constraint α) :
    register s c = some (s.register c) := by
  unfold register
  rw [place_eq hs]
  dsimp only [Option.bind_eq_bind, Option.bind_some]
  rw [attach_eq ((s.evolves_place c).tidy hs)]
  rfl

end Checked

end ElasticLayout
