import ElasticLayout.Proofs.ElasticOwnership
import ElasticLayout.Proofs.Generations

/-!
# No cell is lost

Every cell that is vacated goes on the stack of its store, and stays there until it is filled.  So
the stack of a specification lists all vacant cells, whatever the history.

* `SlotStore.Orderly` -- the stack lists the vacant cells, all of them, and each once;
* `Spec.Orderly` -- both stores are orderly;
* `Spec.Orderly.retain` ... `Spec.Orderly.sizeQuery` -- one lemma for every change;
* `Spec.Reachable.orderly` -- the stores of every reachable specification are orderly.
-/

namespace ElasticLayout

variable {α : Type}

/-! ### Stores -/

/-- The stack of vacant indices lists the vacant cells, all of them, and each once. -/
structure SlotStore.Orderly (s : SlotStore α) : Prop where
  tidy : s.Tidy
  listed : s.ListsVacant

namespace SlotStore.Orderly

variable {s : SlotStore α}

theorem insert (h : s.Orderly) (value : α) : (s.insert value).2.Orderly :=
  ⟨h.tidy.insert value, h.listed.insert h.tidy value⟩

theorem modify (h : s.Orderly) (k : Slot) (f : α → α) : (s.modify k f).Orderly :=
  ⟨h.tidy.modify k f, h.listed.modify k f⟩

theorem erase (h : s.Orderly) (k : Slot) : (s.erase k).Orderly :=
  ⟨h.tidy.erase k, h.listed.erase k⟩

end SlotStore.Orderly

namespace Spec

/-! ### Changes that own nothing -/

/-- Both stores are orderly. -/
structure Orderly (s : Spec α) : Prop where
  variableStore : s.variableStore.Orderly
  constraintStore : s.constraintStore.Orderly

namespace Orderly

variable {s : Spec α}

theorem modifyVariable (h : s.Orderly) (id : VariableId) (f : Variable α → Variable α) :
    (s.modifyVariable id f).Orderly :=
  ⟨h.variableStore.modify id.slot f, h.constraintStore⟩

theorem modifyConstraint (h : s.Orderly) (k : ConstraintId) (f : Constraint α → Constraint α) :
    (s.modifyConstraint k f).Orderly :=
  ⟨h.variableStore, h.constraintStore.modify k.slot f⟩

theorem insertVariable (h : s.Orderly) (v : Variable α) :
    ({ s with variableStore := (s.variableStore.insert v).2 } : Spec α).Orderly :=
  ⟨h.variableStore.insert v, h.constraintStore⟩

theorem eraseConstraint (h : s.Orderly) (k : Slot) :
    ({ s with constraintStore := s.constraintStore.erase k } : Spec α).Orderly :=
  ⟨h.variableStore, h.constraintStore.erase k⟩

theorem foldl {β : Type} {f : Spec α → β → Spec α} (hf : ∀ s b, s.Orderly → (f s b).Orderly)
    (bs : List β) (h : s.Orderly) : (bs.foldl f s).Orderly := by
  induction bs generalizing s with
  | nil => exact h
  | cons b bs ih => exact ih (hf s b h)

theorem retain (h : s.Orderly) (left : List (Summand α)) : (s.retain left).Orderly :=
  foldl (fun _ _ h => h.modifyVariable _ _) left h

theorem release (h : s.Orderly) (left : List (Summand α)) : (s.release left).Orderly :=
  foldl (fun _ _ h => h.modifyVariable _ _) left h

theorem place (h : s.Orderly) (c : Constraint α) : (s.place c).2.Orderly :=
  ⟨(h.retain c.left).variableStore, (h.retain c.left).constraintStore.insert c⟩

theorem withdraw (h : s.Orderly) (k : ConstraintId) : (s.withdraw k).Orderly := by
  unfold Spec.withdraw
  split
  · exact h
  · exact (h.eraseConstraint k.slot).release _

theorem dropVariable (h : s.Orderly) (id : VariableId) : (s.dropVariable id).Orderly := by
  unfold Spec.dropVariable
  split
  · exact h
  · rename_i v hv
    have hbounds : (v.bounds.foldl Spec.withdraw s).Orderly := foldl (fun _ _ h => h.withdraw _) _ h
    exact ⟨hbounds.variableStore.erase id.slot, hbounds.constraintStore⟩

/-! ### Slacks and ranges -/

theorem detach (h : s.Orderly) (k : ConstraintId) : (s.detach k).Orderly := by
  unfold Spec.detach
  split
  · exact h
  · exact (((h.modifyConstraint k _).release _).withdraw _).dropVariable _

theorem drop (h : s.Orderly) (k : ConstraintId) : (s.drop k).Orderly := (h.detach k).withdraw k

variable [Scalar α]

theorem syncBound (h : s.Orderly) (id : VariableId) (existing : Option ConstraintId)
    (relation : Relation) (limit : α) (needed : Bool) :
    (s.syncBound id existing relation limit needed).2.Orderly := by
  unfold Spec.syncBound
  split
  · exact h.modifyConstraint _ _
  · exact h.withdraw _
  · exact h.place _
  · exact h

theorem applyRange (h : s.Orderly) (id : VariableId) (lower upper : α) :
    (s.applyRange id lower upper).Orderly := by
  unfold Spec.applyRange
  split
  · exact h
  · exact (((h.modifyVariable id _).syncBound _ _ _ _ _).syncBound _ _ _ _ _).modifyVariable _ _

theorem attach (h : s.Orderly) (k : ConstraintId) : (s.attach k).Orderly := by
  obtain hsettled | ⟨c, a, hc, hrigid, hsoft, ha⟩ := s.settled_or_pending k
  · rwa [attach_of_settled hsettled]
  · rw [attach_of_softInequality hc hrigid hsoft ha]
    exact (((((h.insertVariable _).applyRange _ _ _).modifyConstraint _ _).retain
      _).place _).modifyConstraint _ _

theorem register (h : s.Orderly) (c : Constraint α) : (s.register c).2.Orderly :=
  (h.place c).attach _

theorem mutate (h : s.Orderly) (k : ConstraintId) (change : Constraint α → Constraint α) :
    (s.mutate k change).Orderly := by
  unfold Spec.mutate
  dsimp only
  split
  · exact h.detach k
  · exact ((((h.detach k).modifyConstraint k _).release _).retain _).attach k

/-! ### Solving -/

theorem solve (h : s.Orderly) : s.solve.Orderly := by
  unfold Spec.solve
  split
  · rename_i x hx
    have hassign : (s.assign (s.columns.zip x.toList)).Orderly :=
      foldl (fun _ _ h => h.modifyVariable _ _) _ h
    exact ⟨hassign.variableStore, hassign.constraintStore⟩
  · exact ⟨h.variableStore, h.constraintStore⟩

omit [Scalar α] in
theorem setSuspended (h : s.Orderly) (suspended : Bool) (k : ConstraintId) :
    (s.setSuspended suspended k).Orderly := by
  unfold Spec.setSuspended
  dsimp only
  split
  · exact h
  · split
    · exact h.modifyConstraint k _
    · exact foldl (fun _ _ h => h.modifyConstraint _ _) _ h

theorem sizeQuery (h : s.Orderly) {t : Spec α} {width height : VariableId} {target : α}
    {unbounded size : Size α}
    (hquery : s.sizeQuery width height target unbounded = .ok (size, t)) : t.Orderly := by
  obtain ⟨-, -, rfl⟩ := sizeQuery_ok hquery
  have hpinned : (s.pinned width height target).2.Orderly :=
    ((foldl (fun _ _ h => h.setSuspended true _) s.suspendable h).register _).register _
  exact foldl (fun _ _ h => h.setSuspended false _) _ ((hpinned.solve.drop _).drop _)

end Orderly

/-! ### Histories -/

variable [Scalar α]

theorem Step.orderly {s t : Spec α} (hstep : s.Step t) (h : s.Orderly) : t.Orderly := by
  cases hstep with
  | stay => exact h
  | addVariable label => exact h.insertVariable _
  | removeVariable id hid =>
    exact (Orderly.foldl (fun _ _ h => h.drop _) (s.mentioning id) h).dropVariable id
  | nameVariable id label => exact h.modifyVariable id _
  | setRange id lower upper hid hrange => exact h.applyRange id lower upper
  | addConstraint left relation right above below hleft hright habove hbelow =>
    exact h.register _
  | removeConstraint id hid => exact h.drop id
  | setLeft id left hid hleft => exact h.mutate id _
  | setRelation id relation hid => exact h.mutate id _
  | setRight id right hid hright => exact h.mutate id _
  | setPenalties id above below hid habove hbelow => exact h.mutate id _
  | nameConstraint id label => exact h.modifyConstraint id _
  | solve => exact h.solve
  | query width height target unbounded hquery => exact h.sizeQuery hquery

/-- **No vacant cell is missing from the stacks**, after every history of calls. -/
theorem Reachable.orderly {s : Spec α} (hs : s.Reachable) : s.Orderly := by
  refine hs.induction (fun options => ?_) fun s t h hstep _ => hstep.orderly h
  have hempty : ∀ {β : Type}, ({} : SlotStore β).Orderly := fun {β} =>
    ⟨SlotStore.tidy_empty, fun i g hi => absurd hi (by simp)⟩
  exact ⟨hempty, hempty⟩

end Spec

end ElasticLayout
