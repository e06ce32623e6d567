import ElasticLayout.Proofs.Stages
import ElasticLayout.Proofs.Wear

/-!
# Worn specifications

A worn copy of a specification has worn copies of its stores, and names variables and constraints by
the handles after the wear.  Every change does to the worn copy what it does to the specification.

* `Wear` -- the wear of both stores;
* `VariableId.worn` ... `Constraint.worn`, `Spec.worn` -- everything after the wear;
* `Spec.getVariable?_worn`, `Spec.getConstraint?_worn` -- the entries;
* `Spec.retain_worn` ... `Spec.mutate_worn` -- one lemma for every change.
-/

namespace ElasticLayout

variable {α : Type}

/-! ### Everything after the wear -/

/-- The wear of the cells of variables and of those of constraints. -/
structure Wear where
  /-- The wear of the variables. -/
  variableCells : CellWear
  /-- The wear of the constraints. -/
  constraintCells : CellWear

/-- A variable, named after the wear. -/
def VariableId.worn (w : Wear) (id : VariableId) : VariableId := ⟨id.slot.worn w.variableCells⟩

/-- A constraint, named after the wear. -/
def ConstraintId.worn (w : Wear) (k : ConstraintId) : ConstraintId :=
  ⟨k.slot.worn w.constraintCells⟩

theorem VariableId.worn_inj {w : Wear} {a b : VariableId} : a.worn w = b.worn w ↔ a = b := by
  rw [← VariableId.slot_inj, ← VariableId.slot_inj (a := a)]
  exact Slot.worn_inj

/-- A summand after the wear. -/
def Summand.worn (w : Wear) (term : Summand α) : Summand α :=
  { term with var := term.var.worn w }

/-- A role after the wear. -/
def Role.worn (w : Wear) : Role → Role
  | .user => .user
  | .bound id => .bound (id.worn w)
  | .slackPenalty k => .slackPenalty (k.worn w)

/-- What an elastic constraint owns, after the wear. -/
def Elastic.worn (w : Wear) (e : Elastic α) : Elastic α :=
  { e with slack := e.slack.worn w, penalty := e.penalty.worn w }

/-- A variable after the wear. -/
def Variable.worn (w : Wear) (v : Variable α) : Variable α :=
  { v with
    lowerBound := v.lowerBound.map (·.worn w)
    upperBound := v.upperBound.map (·.worn w) }

/-- A constraint after the wear. -/
def Constraint.worn (w : Wear) (c : Constraint α) : Constraint α :=
  { c with
    left := c.left.map (·.worn w)
    role := c.role.worn w
    elastic := c.elastic.map (·.worn w) }

/-- A specification after the wear. -/
def Spec.worn (w : Wear) (s : Spec α) : Spec α :=
  { s with
    variableStore := s.variableStore.worn w.variableCells (·.worn w)
    constraintStore := s.constraintStore.worn w.constraintCells (·.worn w) }

@[simp] theorem Role.beq_user_worn (w : Wear) (role : Role) :
    (role.worn w == .user) = (role == .user) := by
  cases role <;> rfl

theorem Variable.bounds_worn (w : Wear) (v : Variable α) :
    (v.worn w).bounds = v.bounds.map (·.worn w) := by
  unfold bounds worn
  dsimp only
  rw [Option.toList_map, Option.toList_map, List.map_append]

/-! ### Left sides -/

theorem addSummand_worn [Add α] (w : Wear) (term : Summand α) (merged : List (Summand α)) :
    addSummand (term.worn w) (merged.map (·.worn w))
      = (addSummand term merged).map (·.worn w) := by
  induction merged with
  | nil => rfl
  | cons other rest ih =>
    rw [List.map_cons]
    unfold addSummand
    have hsame : (other.worn w).var = (term.worn w).var ↔ other.var = term.var :=
      VariableId.worn_inj (w := w)
    rw [ih, if_congr hsame rfl rfl]
    split
    · rfl
    · rfl

theorem mergeSummands_worn [Add α] (w : Wear) (terms : List (Summand α)) :
    mergeSummands (terms.map (·.worn w)) = (mergeSummands terms).map (·.worn w) := by
  suffices hfold : ∀ merged : List (Summand α),
      (terms.map (·.worn w)).foldl (fun merged term => addSummand term merged)
          (merged.map (·.worn w))
        = (terms.foldl (fun merged term => addSummand term merged) merged).map (·.worn w) from
    hfold []
  induction terms with
  | nil => exact fun merged => rfl
  | cons term rest ih =>
    intro merged
    rw [List.map_cons, List.foldl_cons, List.foldl_cons, addSummand_worn]
    exact ih _

theorem Constraint.fresh_worn [Scalar α] (w : Wear) (left : List (Summand α)) (relation : Relation)
    (right above below : α) (role : Role) :
    Constraint.fresh (left.map (·.worn w)) relation right above below (role.worn w)
      = (Constraint.fresh left relation right above below role).worn w := by
  unfold fresh
  rw [mergeSummands_worn]
  rfl

namespace Spec

variable {w : Wear} {s : Spec α}

/-! ### Single entries -/

theorem getVariable?_worn (id : VariableId) :
    (s.worn w).getVariable? (id.worn w) = (s.getVariable? id).map (·.worn w) :=
  SlotStore.get?_worn id.slot

theorem getConstraint?_worn (k : ConstraintId) :
    (s.worn w).getConstraint? (k.worn w) = (s.getConstraint? k).map (·.worn w) :=
  SlotStore.get?_worn k.slot

theorem modifyVariable_worn {f g : Variable α → Variable α}
    (h : ∀ v, g (v.worn w) = (f v).worn w) (id : VariableId) :
    (s.worn w).modifyVariable (id.worn w) g = (s.modifyVariable id f).worn w :=
  congrArg (fun store => { s.worn w with variableStore := store })
    (SlotStore.modify_worn h id.slot)

theorem modifyConstraint_worn {f g : Constraint α → Constraint α}
    (h : ∀ c, g (c.worn w) = (f c).worn w) (k : ConstraintId) :
    (s.worn w).modifyConstraint (k.worn w) g = (s.modifyConstraint k f).worn w :=
  congrArg (fun store => { s.worn w with constraintStore := store })
    (SlotStore.modify_worn h k.slot)

/-! ### Changes that own nothing -/

/-- What a step of a fold does to the worn copy, the fold does. -/
theorem foldl_worn {β γ : Type} {f : Spec α → β → Spec α} {g : Spec α → γ → Spec α} {r : β → γ}
    (h : ∀ (s : Spec α) (b : β), g (s.worn w) (r b) = (f s b).worn w) (bs : List β) (s : Spec α) :
    (bs.map r).foldl g (s.worn w) = (bs.foldl f s).worn w := by
  induction bs generalizing s with
  | nil => rfl
  | cons b bs ih => rw [List.map_cons, List.foldl_cons, List.foldl_cons, h, ih]

theorem retain_worn (left : List (Summand α)) :
    (s.worn w).retain (left.map (·.worn w)) = (s.retain left).worn w :=
  foldl_worn (fun _ term => modifyVariable_worn (fun _ => by rfl) term.var) left s

theorem release_worn (left : List (Summand α)) :
    (s.worn w).release (left.map (·.worn w)) = (s.release left).worn w :=
  foldl_worn (fun _ term => modifyVariable_worn (fun _ => by rfl) term.var) left s

/-- A constraint is stored under the handle after the wear. -/
theorem place_worn (hs : s.Tidy) {c : Constraint α} (hroom : (s.place c).2.Addressable) :
    (s.worn w).place (c.worn w) = ((s.place c).1.worn w, (s.place c).2.worn w) := by
  have htidy : (s.retain c.left).Tidy := (s.evolves_retain c.left).tidy hs
  have hinsert := SlotStore.insert_worn (w := w.constraintCells) (f := (·.worn w)) htidy.2 c
    hroom.2
  have hretain : (s.worn w).retain (c.worn w).left = (s.retain c.left).worn w := retain_worn c.left
  unfold place
  dsimp only
  rw [hretain]
  have hstore : ((s.retain c.left).worn w).constraintStore.insert (c.worn w) = _ := hinsert
  rw [hstore]
  rfl

theorem withdraw_worn (k : ConstraintId) :
    (s.worn w).withdraw (k.worn w) = (s.withdraw k).worn w := by
  unfold withdraw
  rw [getConstraint?_worn]
  cases hc : s.getConstraint? k with
  | none => rfl
  | some c =>
    have herase : ({ s.worn w with
        constraintStore := (s.worn w).constraintStore.erase (k.worn w).slot } : Spec α)
          = ({ s with constraintStore := s.constraintStore.erase k.slot } : Spec α).worn w :=
      congrArg (fun store => { s.worn w with constraintStore := store })
        (SlotStore.erase_worn k.slot)
    dsimp only [Option.map_some]
    rw [herase]
    exact release_worn c.left

theorem dropVariable_worn (id : VariableId) :
    (s.worn w).dropVariable (id.worn w) = (s.dropVariable id).worn w := by
  unfold dropVariable
  rw [getVariable?_worn]
  cases hv : s.getVariable? id with
  | none => rfl
  | some v =>
    dsimp only [Option.map_some]
    rw [Variable.bounds_worn, foldl_worn fun s k => withdraw_worn (s := s) k]
    exact congrArg (fun store => { (v.bounds.foldl withdraw s).worn w with variableStore := store })
      (SlotStore.erase_worn id.slot)

/-! ### Slacks taken back -/

theorem detach_worn (k : ConstraintId) : (s.worn w).detach (k.worn w) = (s.detach k).worn w := by
  obtain hrigid | ⟨c, e, hc, he⟩ := s.rigid_or_elastic k
  · rw [detach_of_rigid hrigid, detach_of_rigid fun d hd => ?_]
    have hd : (s.worn w).getConstraint? (k.worn w) = some d := hd
    rw [getConstraint?_worn] at hd
    obtain ⟨c, hc, rfl⟩ := Option.map_eq_some_iff.1 hd
    show c.elastic.map _ = none
    rw [hrigid c hc, Option.map_none]
  · have hc' : (s.worn w).getConstraint? (k.worn w) = some (c.worn w) := by
      rw [getConstraint?_worn, ← registry_constraint?, hc, Option.map_some]
    have he' : (c.worn w).elastic = some (e.worn w) :=
      congrArg (Option.map (Elastic.worn w)) he
    -- The slack is told from the other variables after the wear as before.
    have hslack : ∀ term : Summand α,
        ((term.worn w).var == (e.worn w).slack) = (term.var == e.slack) := fun term =>
      Bool.eq_iff_iff.2 (beq_iff_eq.trans ((VariableId.worn_inj (w := w)).trans beq_iff_eq.symm))
    have hremoved : (c.worn w).left.filter (·.var == (e.worn w).slack)
        = (c.left.filter (·.var == e.slack)).map (·.worn w) := by
      show (c.left.map _).filter _ = _
      rw [List.filter_map]
      exact congrArg _ (List.filter_congr fun term _ => hslack term)
    have hkept : (c.worn w).left.filter (·.var != (e.worn w).slack)
        = (c.left.filter (·.var != e.slack)).map (·.worn w) := by
      show (c.left.map _).filter _ = _
      rw [List.filter_map]
      exact congrArg _ (List.filter_congr fun term _ => congrArg not (hslack term))
    rw [detach_eq hc he, detach_eq hc' he', hremoved, hkept]
    rw [modifyConstraint_worn (f := fun d => { d with
      elastic := none, left := c.left.filter (·.var != e.slack) }) fun _ => rfl, release_worn]
    show ((Spec.worn w _).withdraw (e.penalty.worn w)).dropVariable (e.slack.worn w) = _
    rw [withdraw_worn, dropVariable_worn]

theorem drop_worn (k : ConstraintId) : (s.worn w).drop (k.worn w) = (s.drop k).worn w := by
  unfold drop
  rw [detach_worn, withdraw_worn]

/-! ### Ranges -/

variable [Scalar α]

theorem insertVariable_worn (hs : s.Tidy) (label : Option String) (isSlack : Bool)
    (hroom : (s.variableStore.insert (Variable.fresh label isSlack : Variable α)).2.Addressable) :
    (s.worn w).variableStore.insert (Variable.fresh label isSlack : Variable α)
      = ((s.variableStore.insert (Variable.fresh label isSlack : Variable α)).1.worn
          w.variableCells,
        (s.variableStore.insert (Variable.fresh label isSlack : Variable α)).2.worn w.variableCells
          (·.worn w)) :=
  SlotStore.insert_worn (w := w.variableCells) (f := Variable.worn w) hs.1 _ hroom

theorem syncBound_worn (hs : s.Tidy) {id : VariableId} {existing : Option ConstraintId}
    {relation : Relation} {limit : α} {needed : Bool}
    (hroom : (s.syncBound id existing relation limit needed).2.Addressable) :
    (s.worn w).syncBound (id.worn w) (existing.map (·.worn w)) relation limit needed
      = ((s.syncBound id existing relation limit needed).1.map (·.worn w),
        (s.syncBound id existing relation limit needed).2.worn w) := by
  cases existing with
  | none =>
    cases needed with
    | false => rfl
    | true =>
      have hplace := place_worn (w := w) hs
        (c := .fresh [⟨1, id⟩] relation limit 0 0 (.bound id)) hroom
      rw [← Constraint.fresh_worn] at hplace
      have hplace : (s.worn w).place
          (.fresh [⟨1, id.worn w⟩] relation limit 0 0 (.bound (id.worn w))) = _ := hplace
      unfold syncBound
      dsimp only [Option.map_none]
      rw [hplace]
      rfl
  | some bound =>
    cases needed with
    | false => exact Prod.ext rfl (withdraw_worn bound)
    | true => exact Prod.ext rfl (modifyConstraint_worn (fun _ => by rfl) bound)

theorem applyRange_worn (hs : s.Tidy) {id : VariableId} {lower upper : α}
    (hroom : (s.applyRange id lower upper).Addressable) :
    (s.worn w).applyRange (id.worn w) lower upper = (s.applyRange id lower upper).worn w := by
  cases hv : s.getVariable? id with
  | none =>
    unfold applyRange
    rw [getVariable?_worn, hv]
    rfl
  | some v =>
    have hv' : (s.worn w).getVariable? (id.worn w) = some (v.worn w) := by
      rw [getVariable?_worn, hv, Option.map_some]
    obtain ⟨s₁, s₂, s₃, a, b, hstages⟩ := exists_rangeStages hv lower upper
    obtain ⟨t₁, t₂, t₃, a', b', hstages'⟩ := exists_rangeStages hv' lower upper
    have hends : t₁ = s₁.worn w := by
      rw [hstages.ends, hstages'.ends]
      exact modifyVariable_worn (fun _ => by rfl) id
    have hlower := hstages'.lowerEnd
    rw [hends] at hlower
    have hlowerRoom : (s₁.syncBound id v.lowerBound .ge lower
        (Variable.defaultLower < lower)).2.Addressable := by
      rw [hstages.lowerEnd]
      exact hstages.room₂ hroom
    rw [show (v.worn w).lowerBound = v.lowerBound.map (·.worn w) from rfl,
      syncBound_worn (hstages.tidy₁ hs) hlowerRoom, hstages.lowerEnd] at hlower
    obtain ⟨ha, ht₂⟩ := Prod.mk.inj hlower
    have hupper := hstages'.upperEnd
    rw [← ht₂] at hupper
    have hupperRoom : (s₂.syncBound id v.upperBound .le upper
        (upper < Variable.defaultUpper)).2.Addressable := by
      rw [hstages.upperEnd]
      exact hstages.room₃ hroom
    rw [show (v.worn w).upperBound = v.upperBound.map (·.worn w) from rfl,
      syncBound_worn (hstages.tidy₂ hs) hupperRoom, hstages.upperEnd] at hupper
    obtain ⟨hb, ht₃⟩ := Prod.mk.inj hupper
    rw [hstages.links, hstages'.links, ← ht₃, ← ha, ← hb]
    exact modifyVariable_worn (fun _ => by rfl) id

/-! ### Slacks -/

theorem attachSlack_worn (hs : s.Tidy) {k : ConstraintId} {c : Constraint α} {a : α}
    (hroom : (s.attachSlack k c a).Addressable) :
    (s.worn w).attachSlack (k.worn w) (c.worn w) a = (s.attachSlack k c a).worn w := by
  obtain ⟨s₁, s₂, s₃, s₄, slack, penalty, hstages⟩ := exists_slackStages s k c a
  obtain ⟨t₁, t₂, t₃, t₄, slack', penalty', hstages'⟩ :=
    exists_slackStages (s.worn w) (k.worn w) (c.worn w) a
  have hroom₁ := hstages.room₁ hroom
  rw [hstages.inserted] at hroom₁
  have hinsert := insertVariable_worn (w := w) hs none true hroom₁.1
  have hslack : slack' = slack.worn w := by
    rw [hstages'.handle, hinsert, hstages.handle]
    rfl
  have ht₁ : t₁ = s₁.worn w := by
    rw [hstages'.inserted, hinsert, hstages.inserted]
    rfl
  have ht₂ : t₂ = s₂.worn w := by
    have hranged := hstages.room₂ hroom
    rw [hstages.ranged] at hranged
    rw [hstages'.ranged, ht₁, hslack, hstages.ranged]
    exact applyRange_worn (hstages.tidy₁ hs) hranged
  have ht₃ : t₃ = s₃.worn w := by
    rw [hstages'.extended, ht₂, hslack, hstages.extended]
    rw [modifyConstraint_worn (f := fun c => { c with left := c.left ++ [⟨a, slack⟩] }) fun d => ?_]
    · exact retain_worn [⟨a, slack⟩]
    · unfold Constraint.worn
      dsimp only
      rw [List.map_append]
      rfl
  have hpenalty : (penaltyOf k c slack).worn w = penaltyOf (k.worn w) (c.worn w) slack' := by
    unfold penaltyOf
    rw [← Constraint.fresh_worn, hslack]
    rfl
  have hplacedRoom : (s₃.place (penaltyOf k c slack)).2.Addressable := by
    rw [hstages.penalized]
    exact hstages.room₄ hroom
  have hplaced := hstages'.penalized
  rw [ht₃, ← hpenalty, place_worn (hstages.tidy₃ hs) hplacedRoom, hstages.penalized] at hplaced
  obtain ⟨hhandle, ht₄⟩ := Prod.mk.inj hplaced
  rw [hstages.linked, hstages'.linked, ← ht₄, ← hhandle, hslack]
  exact modifyConstraint_worn (fun _ => by rfl) k

theorem attach_worn (hs : s.Tidy) {k : ConstraintId} (hroom : (s.attach k).Addressable) :
    (s.worn w).attach (k.worn w) = (s.attach k).worn w := by
  obtain hsettled | ⟨c, a, hc, hrigid, hsoft, ha⟩ := s.settled_or_pending k
  · rw [attach_of_settled hsettled, attach_of_settled fun d hd => ?_]
    rw [getConstraint?_worn] at hd
    obtain ⟨c, hc, rfl⟩ := Option.map_eq_some_iff.1 hd
    have hkept : (c.worn w).elastic.isSome = c.elastic.isSome := Option.isSome_map
    rw [hkept]
    exact hsettled c hc
  · have hc' : (s.worn w).getConstraint? (k.worn w) = some (c.worn w) := by
      rw [getConstraint?_worn, hc, Option.map_some]
    have hrigid' : (c.worn w).elastic = none := by
      show c.elastic.map _ = none
      rw [hrigid, Option.map_none]
    rw [attach_of_softInequality hc hrigid hsoft ha] at hroom ⊢
    rw [attach_of_softInequality hc' hrigid' hsoft ha]
    exact attachSlack_worn hs hroom

/-! ### Constraints of any kind -/

theorem register_worn (hs : s.Tidy) {c : Constraint α} (hroom : (s.register c).2.Addressable) :
    (s.worn w).register (c.worn w) = ((s.register c).1.worn w, (s.register c).2.worn w) := by
  have hplace := place_worn (w := w) hs ((evolves_attach _ _).addressable hroom)
  unfold register
  dsimp only
  rw [hplace]
  exact Prod.ext rfl (attach_worn ((s.evolves_place c).tidy hs) hroom)

theorem mutate_worn (hs : s.Tidy) {k : ConstraintId} {f g : Constraint α → Constraint α}
    (h : ∀ c, g (c.worn w) = (f c).worn w) (hroom : (s.mutate k f).Addressable) :
    (s.worn w).mutate (k.worn w) g = (s.mutate k f).worn w := by
  have hget : ((s.worn w).detach (k.worn w)).getConstraint? (k.worn w)
      = ((s.detach k).getConstraint? k).map (·.worn w) := by
    rw [detach_worn, getConstraint?_worn]
  cases hc : (s.detach k).getConstraint? k with
  | none =>
    rw [hc] at hget
    unfold mutate
    dsimp only
    rw [hget, hc]
    exact detach_worn k
  | some c =>
    rw [hc] at hget
    rw [mutate_eq hc] at hroom
    rw [mutate_eq hc, mutate_eq hget, detach_worn, modifyConstraint_worn h, h]
    show ((Spec.release _ (c.left.map _)).retain ((f c).left.map _)).attach _ = _
    rw [release_worn, retain_worn]
    have htidy := (((evolves_modifyConstraint _ k f).trans (evolves_release _ c.left)).trans
      (evolves_retain _ (f c).left)).tidy ((s.evolves_detach k).tidy hs)
    exact attach_worn htidy hroom

end Spec

end ElasticLayout
