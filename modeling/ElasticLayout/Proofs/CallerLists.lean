import ElasticLayout.Proofs.Columns
import ElasticLayout.Proofs.Refinement

/-!
# What a caller has added, in order

As long as nothing is removed, no cell is vacated, and every new handle comes after all the others.
The variables and the constraints of a caller, listed by handle, are then in the order in which they
were added, whatever internal entries lie between them.

* `SlotStore.Unvacated`, `Spec.Unvacated` -- no vacant cell waits to be filled;
* `Spec.Unvacated.applyRange`, `Spec.Unvacated.register` -- additions, and ranges that stay
  narrowed, keep it so;
* `Ascending` -- a list in the order of handles has the entries of a table;
* `Spec.Lists` -- what the caller has added, in order;
* `Spec.Lists.addVariable`, `Spec.Lists.setRange`, `Spec.Lists.addConstraint`,
  `Spec.Lists.nameConstraint` -- a call appends an entry, or changes the last one;
* `Spec.Lists.constraintList_eq` -- the list of the specification.
-/

namespace ElasticLayout

variable {α : Type}

/-! ### Stores without vacant cells -/

namespace SlotStore

/-- A tidy store in which no vacant cell waits to be filled. -/
structure Unvacated (s : SlotStore α) : Prop where
  tidy : s.Tidy
  /-- No cell is listed as vacant. -/
  free : s.free = []

namespace Unvacated

variable {s : SlotStore α}

theorem insert_eq (h : s.Unvacated) (value : α) : s.insert value = s.append value := by
  unfold insert
  rw [h.free]

theorem insert (h : s.Unvacated) (value : α) : (s.insert value).2.Unvacated := by
  refine ⟨h.tidy.insert value, ?_⟩
  rw [h.insert_eq]
  exact h.free

theorem modify (h : s.Unvacated) (slot : Slot) (f : α → α) : (s.modify slot f).Unvacated := by
  refine ⟨h.tidy.modify slot f, ?_⟩
  unfold SlotStore.modify
  split
  · exact h.free
  · exact h.free

/-- **A new handle comes after all the others.** -/
theorem precedes_new (h : s.Unvacated) {value found : α} {slot : Slot}
    (hroom : (s.insert value).2.Addressable) (hlive : s.get? slot = some found) :
    slot.precedes (s.insert value).1 = true := by
  rw [h.insert_eq] at hroom ⊢
  have hcell := (s.get?_eq_some_iff slot found).1 hlive
  have hindex : slot.index.toNat < s.cells.size := (Array.getElem?_eq_some_iff.1 hcell).1
  refine Slot.precedes_iff.2 (.inl (UInt32.lt_iff_toNat_lt.2 ?_))
  show slot.index.toNat < (UInt32.ofNat s.cells.size).toNat
  rwa [toNat_next hroom]

end Unvacated

end SlotStore

namespace Spec

/-- In neither store a vacant cell waits to be filled. -/
structure Unvacated (s : Spec α) : Prop where
  variableStore : s.variableStore.Unvacated
  constraintStore : s.constraintStore.Unvacated

namespace Unvacated

variable {s : Spec α}

theorem tidy (h : s.Unvacated) : s.Tidy := ⟨h.variableStore.tidy, h.constraintStore.tidy⟩

theorem modifyVariable (h : s.Unvacated) (id : VariableId) (f : Variable α → Variable α) :
    (s.modifyVariable id f).Unvacated :=
  ⟨h.variableStore.modify id.slot f, h.constraintStore⟩

theorem modifyConstraint (h : s.Unvacated) (id : ConstraintId)
    (f : Constraint α → Constraint α) : (s.modifyConstraint id f).Unvacated :=
  ⟨h.variableStore, h.constraintStore.modify id.slot f⟩

theorem retain (h : s.Unvacated) (left : List (Summand α)) : (s.retain left).Unvacated := by
  unfold Spec.retain
  induction left generalizing s with
  | nil => exact h
  | cons term left ih => exact ih (h.modifyVariable term.var _)

theorem insertVariable (h : s.Unvacated) (v : Variable α) :
    ({ s with variableStore := (s.variableStore.insert v).2 } : Spec α).Unvacated :=
  ⟨h.variableStore.insert v, h.constraintStore⟩

theorem place (h : s.Unvacated) (c : Constraint α) : (s.place c).2.Unvacated :=
  ⟨(h.retain c.left).variableStore, (h.retain c.left).constraintStore.insert c⟩

variable [Scalar α]

/-- A bound constraint is added or moved. -/
theorem syncBound (h : s.Unvacated) (id : VariableId) {existing : Option ConstraintId}
    (relation : Relation) (limit : α) {needed : Bool}
    (hkept : existing.isSome = true → needed = true) :
    (s.syncBound id existing relation limit needed).2.Unvacated := by
  cases existing with
  | none =>
    cases needed with
    | false => exact h
    | true => exact h.place _
  | some bound =>
    rw [hkept rfl]
    exact h.modifyConstraint bound _

/-- A range is set that leaves the narrowed ends narrowed. -/
theorem applyRange (h : s.Unvacated) {id : VariableId} {v : Variable α}
    (hv : s.getVariable? id = some v) {lower upper : α}
    (hlower : v.lowerBound.isSome = true → Variable.defaultLower < lower)
    (hupper : v.upperBound.isSome = true → upper < Variable.defaultUpper) :
    (s.applyRange id lower upper).Unvacated := by
  obtain ⟨s₁, s₂, s₃, lowerBound, upperBound, hstages⟩ := exists_rangeStages hv lower upper
  have h₁ : s₁.Unvacated := hstages.ends ▸ h.modifyVariable id _
  have h₂ : s₂.Unvacated := by
    have hsync := h₁.syncBound id .ge lower fun hsome => decide_eq_true (hlower hsome)
    rwa [hstages.lowerEnd] at hsync
  have h₃ : s₃.Unvacated := by
    have hsync := h₂.syncBound id .le upper fun hsome => decide_eq_true (hupper hsome)
    rwa [hstages.upperEnd] at hsync
  rw [hstages.links]
  exact h₃.modifyVariable id _

/-- A slack is given: its range is that of a new variable, which has no bound constraints. -/
theorem attachSlack (h : s.Unvacated) (id : ConstraintId) (c : Constraint α) (a : α)
    (hroom : (s.attachSlack id c a).Addressable) : (s.attachSlack id c a).Unvacated := by
  obtain ⟨s₁, s₂, s₃, s₄, slack, penalty, hstages⟩ := exists_slackStages s id c a
  have hslack : s₁.getVariable? slack = some (Variable.fresh none true) := by
    have hroom₁ := (hstages.inserted ▸ hstages.room₁ hroom).1
    rw [hstages.inserted, hstages.handle]
    show (s.variableStore.insert _).2.get? _ = _
    rw [SlotStore.insert_get? h.variableStore.tidy hroom₁, Function.update_self]
  have h₁ : s₁.Unvacated := hstages.inserted ▸ h.insertVariable _
  have h₂ : s₂.Unvacated := by
    rw [hstages.ranged]
    exact h₁.applyRange hslack (fun hsome => absurd hsome (by simp [Variable.fresh]))
      fun hsome => absurd hsome (by simp [Variable.fresh])
  have h₃ : s₃.Unvacated := hstages.extended ▸ (h₂.modifyConstraint id _).retain _
  have h₄ : s₄.Unvacated := by
    have hplaced := h₃.place (penaltyOf id c slack)
    rwa [hstages.penalized] at hplaced
  rw [hstages.linked]
  exact h₄.modifyConstraint id _

theorem attach (h : s.Unvacated) (id : ConstraintId) (hroom : (s.attach id).Addressable) :
    (s.attach id).Unvacated := by
  unfold Spec.attach at hroom ⊢
  split
  · exact h
  · rename_i hget
    rw [hget] at hroom
    dsimp only at hroom
    split
    · exact h
    · rename_i hsoft
      rw [if_neg hsoft] at hroom
      split
      · exact h
      · rename_i ha
        rw [ha] at hroom
        exact h.attachSlack id _ _ hroom

theorem register (h : s.Unvacated) (c : Constraint α) (hroom : (s.register c).2.Addressable) :
    (s.register c).2.Unvacated :=
  (h.place c).attach _ hroom

end Unvacated

end Spec

/-! ### Tables in order -/

/-- A list in the order of handles has the entries of a table. -/
structure Ascending {ι β : Type} (slot : ι → Slot) (entries : List (ι × β)) (table : ι → Option β) :
    Prop where
  pairwise : entries.Pairwise fun a b => (slot a.1).precedes (slot b.1) = true
  mem_iff : ∀ i x, (i, x) ∈ entries ↔ table i = some x

namespace Ascending

variable {ι β : Type} {slot : ι → Slot} {entries entries' : List (ι × β)} {table : ι → Option β}
  {i : ι} {x y : β}

theorem eq (h : Ascending slot entries table) (h' : Ascending slot entries' table) :
    entries = entries' := by
  refine eq_of_pairwise_precedes (fun p => slot p.1) h.pairwise h'.pairwise fun p => ?_
  rw [h.mem_iff, h'.mem_iff]

theorem nodup_keys (h : Ascending slot entries table) : (entries.map Prod.fst).Nodup := by
  rw [List.Nodup, List.pairwise_map]
  refine h.pairwise.imp fun {a b} hlt heq => ?_
  rw [heq] at hlt
  exact Slot.precedes_irrefl _ hlt

variable [DecidableEq ι]

/-- An entry whose handle comes after all the others is appended. -/
theorem concat (h : Ascending slot entries table)
    (hlast : ∀ j z, table j = some z → (slot j).precedes (slot i) = true) :
    Ascending slot (entries ++ [(i, x)]) (Function.update table i (some x)) where
  pairwise := by
    refine List.pairwise_append.2 ⟨h.pairwise, List.pairwise_singleton .., fun p hp q hq => ?_⟩
    rw [List.mem_singleton.1 hq]
    exact hlast p.1 p.2 ((h.mem_iff p.1 p.2).1 hp)
  mem_iff := by
    intro j z
    rw [List.mem_append, List.mem_singleton, h.mem_iff, Function.update_apply]
    split
    · rename_i hj
      subst hj
      have hfresh : table j ≠ some z := fun hz => Slot.precedes_irrefl _ (hlast j z hz)
      simp [hfresh, eq_comm]
    · rename_i hj
      simp [hj]

/-- The last entry is replaced. -/
theorem replaceLast (h : Ascending slot (entries ++ [(i, x)]) table) :
    Ascending slot (entries ++ [(i, y)]) (Function.update table i (some y)) where
  pairwise := by
    obtain ⟨hentries, -, hlast⟩ := List.pairwise_append.1 h.pairwise
    refine List.pairwise_append.2 ⟨hentries, List.pairwise_singleton .., fun p hp q hq => ?_⟩
    rw [List.mem_singleton.1 hq]
    exact hlast p hp (i, x) (List.mem_singleton_self _)
  mem_iff := by
    obtain ⟨-, -, hlast⟩ := List.pairwise_append.1 h.pairwise
    intro j z
    have hiff := h.mem_iff j z
    rw [List.mem_append, List.mem_singleton] at hiff ⊢
    rw [Function.update_apply]
    split
    · rename_i hj
      subst hj
      have hfresh : (j, z) ∉ entries := fun hmem =>
        Slot.precedes_irrefl _ (hlast (j, z) hmem (j, x) (List.mem_singleton_self _))
      simp [hfresh, eq_comm]
    · rename_i hj
      rw [← hiff]
      simp [hj]

omit [DecidableEq ι] in
theorem table_eq_some (h : Ascending slot (entries ++ [(i, x)]) table) : table i = some x :=
  (h.mem_iff i x).1 (List.mem_append_right _ (List.mem_singleton_self _))

end Ascending

/-! ### What a caller has added -/

namespace Spec

/-- What the caller has added, in the order of the handles; nothing has been removed. -/
structure Lists (s : Spec α) [Scalar α] (variableEntries : List (VariableId × PlainVariable α))
    (constraintEntries : List (ConstraintId × PlainConstraint α)) : Prop where
  room : s.Addressable
  unvacated : s.Unvacated
  owned : s.registry.Owned none
  variableEntries : Ascending VariableId.slot variableEntries s.plain.variableAt?
  constraintEntries : Ascending ConstraintId.slot constraintEntries s.plain.constraintAt?

variable [Scalar α]

omit [Scalar α] in
theorem setConstraintLabel_ok {s t : Spec α} {k : ConstraintId} {label : String}
    (h : s.setConstraintLabel k label = .ok t) :
    t = s.modifyConstraint k fun c => { c with label := some label } := by
  unfold setConstraintLabel at h
  split at h
  · exact (Except.ok.inj h).symm
  · exact absurd h (by simp)

/-- A variable that has been added is live. -/
theorem getVariable?_addVariable {s : Spec α} (hs : s.Tidy) (label : Option String)
    (hroom : (s.addVariable label).2.Addressable) :
    (s.addVariable label).2.getVariable? (s.addVariable label).1
      = some (Variable.fresh label false) := by
  show (s.variableStore.insert _).2.get? _ = _
  rw [SlotStore.insert_get? hs.1 hroom.1]
  exact Function.update_self ..

theorem lists_initial (options : Options α) : ({ options } : Spec α).Lists [] [] where
  room := ⟨Nat.zero_le _, Nat.zero_le _⟩
  unvacated := ⟨⟨SlotStore.tidy_empty, rfl⟩, ⟨SlotStore.tidy_empty, rfl⟩⟩
  owned := owned_initial options
  variableEntries := ⟨.nil, by simp [plain, plainVariable?, getVariable?, SlotStore.get?]⟩
  constraintEntries := ⟨.nil, by simp [plain, getConstraint?, SlotStore.get?]⟩

namespace Lists

variable {s t : Spec α} {vs : List (VariableId × PlainVariable α)}
  {cs : List (ConstraintId × PlainConstraint α)} {id : VariableId} {x : PlainVariable α}
  {k : ConstraintId} {c : PlainConstraint α}

/-- The list of the constraints of the caller. -/
theorem constraintList_eq (h : s.Lists vs cs) :
    (s.constraintList.filter fun p => p.2.role == .user).map (fun p => (p.1, p.2.plain)) = cs := by
  refine (h.constraintEntries.eq ⟨?_, fun k c => ?_⟩).symm
  · rw [List.pairwise_map]
    exact (constraintList_pairwise h.room).filter _
  · rw [constraintAt?_eq_some, List.mem_map]
    constructor
    · rintro ⟨⟨k, d⟩, hmem, hpair⟩
      obtain ⟨rfl, rfl⟩ := Prod.mk.inj hpair
      obtain ⟨hlive, hrole⟩ := List.mem_filter.1 hmem
      exact ⟨d, (mem_constraintList h.room).1 hlive, beq_iff_eq.1 hrole, rfl⟩
    · rintro ⟨d, hd, hrole, rfl⟩
      exact ⟨(k, d), List.mem_filter.2 ⟨(mem_constraintList h.room).2 hd, beq_iff_eq.2 hrole⟩, rfl⟩

/-- A variable is appended. -/
theorem addVariable [RangeScalar α] (h : s.Lists vs cs) (label : Option String)
    (hroom : (s.addVariable label).2.Addressable) :
    (s.addVariable label).2.Lists (vs ++ [((s.addVariable label).1,
      ⟨Variable.defaultLower, Variable.defaultUpper, label⟩)]) cs := by
  have htidy := h.unvacated.tidy
  have hplain := plain_addVariable htidy label hroom
  refine ⟨hroom, h.unvacated.insertVariable _,
    (Step.addVariable s label).owned htidy h.owned hroom, ?_, ?_⟩
  · rw [hplain]
    refine h.variableEntries.concat fun id x hx => ?_
    obtain ⟨v, hv, -⟩ := plainVariable?_eq_some.1 hx
    exact h.unvacated.variableStore.precedes_new hroom.1 hv
  · rw [hplain]
    exact h.constraintEntries

/-- The range of the last variable is set, and its narrowed ends stay narrowed. -/
theorem setRange [RangeScalar α] (h : s.Lists (vs ++ [(id, x)]) cs) {lower upper : α}
    (hset : s.setRange id lower upper = .ok t) (hroom : t.Addressable)
    (hlower : Variable.defaultLower < x.lower → Variable.defaultLower < lower)
    (hupper : x.upper < Variable.defaultUpper → upper < Variable.defaultUpper) :
    t.Lists (vs ++ [(id, { x with lower, upper })]) cs := by
  have htidy := h.unvacated.tidy
  have howned := (step_of_setRange hset).owned htidy h.owned hroom
  have hx := h.variableEntries.table_eq_some
  obtain ⟨v, hv, -, rfl⟩ := plainVariable?_eq_some.1 hx
  have hkept := h.owned.range id _ (registry_extent?_eq_some hv)
  obtain ⟨-, -, rfl⟩ := setRange_ok hset
  have hplain := plain_applyRange htidy h.owned hx hroom
  refine ⟨hroom, ?_, howned, ?_, ?_⟩
  · exact h.unvacated.applyRange hv (fun hsome => hlower (hkept.lower.1.1 hsome))
      fun hsome => hupper (hkept.upper.1.1 hsome)
  · rw [hplain]
    exact h.variableEntries.replaceLast
  · rw [hplain]
    exact h.constraintEntries

variable [RangeScalar α]

/-- A constraint is appended. -/
theorem addConstraint (h : s.Lists vs cs) {coefficients : List α} {ids : List VariableId}
    {relation : Relation} {right above below : α}
    (hadd : s.addConstraint coefficients ids relation right above below = .ok (k, t))
    (hroom : t.Addressable) :
    t.Lists vs (cs ++ [(k, ⟨mergeSummands (List.zipWith Summand.mk coefficients ids), relation,
      right, above, below, none⟩)]) := by
  have htidy := h.unvacated.tidy
  have howned := (step_of_addConstraint hadd).owned htidy h.owned hroom
  have hplain := plain_addConstraint htidy h.owned hadd hroom
  obtain ⟨-, hcall⟩ := addConstraint_eq_ok_iff.1 hadd
  set left := List.zipWith Summand.mk coefficients ids
  obtain rfl : k = (s.register (.fresh left relation right above below .user)).1 := by rw [hcall]
  obtain rfl : t = (s.register (.fresh left relation right above below .user)).2 := by rw [hcall]
  have hplaced : (s.place (.fresh left relation right above below .user)).2.Addressable :=
    (evolves_attach _ _).addressable hroom
  refine ⟨hroom, h.unvacated.register _ hroom, howned, ?_, ?_⟩
  · rw [hplain]
    exact h.variableEntries
  · rw [hplain]
    refine h.constraintEntries.concat fun j d hd => ?_
    obtain ⟨c, hc, -⟩ := constraintAt?_eq_some.1 hd
    have hlive : (s.retain (mergeSummands left)).registry.constraint? j = some c := by
      rw [registry_retain]
      exact hc
    exact (h.unvacated.retain (mergeSummands left)).constraintStore.precedes_new hplaced.2 hlive

omit [RangeScalar α] in
/-- The last constraint is named. -/
theorem nameConstraint (h : s.Lists vs (cs ++ [(k, c)])) {label : String}
    (hset : s.setConstraintLabel k label = .ok t) :
    t.Lists vs (cs ++ [(k, { c with label := some label })]) := by
  obtain ⟨d, hd, hrole, rfl⟩ := constraintAt?_eq_some.1 h.constraintEntries.table_eq_some
  obtain rfl := setConstraintLabel_ok hset
  have hroom := (s.evolves_modifyConstraint k fun c => { c with label := some label })
  have hplain := plain_nameConstraint hd hrole (some label)
  refine ⟨?_, h.unvacated.modifyConstraint k _, ?_, ?_, ?_⟩
  · exact ⟨h.room.1, hroom.le_constraints.trans h.room.2⟩
  · rw [registry_modifyConstraint, show s.registry.constraint? k = some d from hd]
    exact h.owned.relabel hd (some label)
  · rw [hplain]
    exact h.variableEntries
  · rw [hplain]
    exact h.constraintEntries.replaceLast

end Lists

end Spec

end ElasticLayout
