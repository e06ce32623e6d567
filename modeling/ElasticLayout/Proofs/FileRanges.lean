import ElasticLayout.Proofs.HandleQueue
import ElasticLayout.Proofs.Loading
import ElasticLayout.Proofs.Ranges

/-!
# Ranges in a model file

A file is loaded by setting the lower end of a range and then the upper end, where a caller can set
both at once.  On a new variable this comes to the same specification, down to the handles of the
bound constraints.  But the lower end is checked on its own, against the default upper end, so that
a proper range above the default one is rejected.

* `SlotStore.modify_modify`, `SlotStore.modify_eq_self` -- changes of one entry;
* `Spec.syncBound_modifyVariable` -- a bound constraint is made before or after such a change;
* `Spec.applyRange_applyRange` -- two ends one after the other are two ends at once;
* `Spec.isRange_both_iff` -- what passes both checks;
* `LoadedModel.Holds.declare_eq`, `LoadedModel.Holds.declare_invalidRange_iff` -- one declaration;
* `ModelFile.range_loaded` -- the main result;
* `ModelFile.proper_range_may_be_rejected` -- a range that no file can give.
-/

namespace ElasticLayout

variable {α : Type}

/-! ### Changing an entry twice -/

namespace SlotStore

variable {s : SlotStore α} {slot : Slot} {f g : α → α} {x : α}

theorem modify_of_some (h : s.get? slot = some x) :
    s.modify slot f = { s with
      cells := s.cells.setIfInBounds slot.index.toNat (.occupied slot.generation (f x)) } := by
  unfold modify
  rw [h]

theorem modify_of_none (h : s.get? slot = none) : s.modify slot f = s := by
  unfold modify
  rw [h]

theorem modify_modify : (s.modify slot f).modify slot g = s.modify slot fun x => g (f x) := by
  cases hx : s.get? slot with
  | none => rw [modify_of_none hx, modify_of_none hx, modify_of_none hx]
  | some x =>
    have hfx : (s.modify slot f).get? slot = some (f x) := by
      rw [get?_modify_self, hx, Option.map_some]
    rw [modify_of_some hfx, modify_of_some hx, modify_of_some hx]
    dsimp only
    rw [Array.setIfInBounds_setIfInBounds]

/-- A change that leaves the entry alone. -/
theorem modify_eq_self (hx : s.get? slot = some x) (hf : f x = x) : s.modify slot f = s := by
  have hcell := (s.get?_eq_some_iff slot x).1 hx
  obtain ⟨hindex, hcell⟩ := Array.getElem?_eq_some_iff.1 hcell
  rw [modify_of_some hx, hf, ← hcell, Array.setIfInBounds_def, dif_pos hindex,
    Array.set_getElem_self]

end SlotStore

namespace Spec

variable {s t u : Spec α} {id : VariableId} {f g : Variable α → Variable α}

theorem modifyVariable_modifyVariable : (s.modifyVariable id f).modifyVariable id g
    = s.modifyVariable id fun v => g (f v) :=
  congrArg (fun store => { s with variableStore := store }) SlotStore.modify_modify

variable [Scalar α]

/-- A bound constraint that is made counts as a reference of its variable. -/
theorem syncBound_none_true (s : Spec α) (id : VariableId) (relation : Relation) (limit : α) :
    s.syncBound id none relation limit true =
      let stored := s.constraintStore.insert (.fresh [⟨1, id⟩] relation limit 0 0 (.bound id))
      let retained := s.modifyVariable id fun v => { v with references := v.references + 1 }
      (some ⟨stored.1⟩, { retained with constraintStore := stored.2 }) :=
  rfl

/-- Whether a bound constraint is made before or after a change of the variable does not matter, as
long as the change has nothing to do with references. -/
theorem syncBound_modifyVariable (relation : Relation) (limit : α) (needed : Bool)
    (hf : ∀ v, f { v with references := v.references + 1 }
      = { f v with references := (f v).references + 1 })
    {k : Option ConstraintId} (h : s.syncBound id none relation limit needed = (k, t)) :
    (s.modifyVariable id f).syncBound id none relation limit needed
      = (k, t.modifyVariable id f) := by
  cases needed with
  | false =>
    obtain ⟨rfl, rfl⟩ := Prod.mk.inj h
    rfl
  | true =>
    rw [syncBound_none_true] at h ⊢
    obtain ⟨rfl, rfl⟩ := Prod.mk.inj h
    rw [modifyVariable_modifyVariable]
    have hcomm : s.modifyVariable id (fun v => { f v with references := (f v).references + 1 })
        = (s.modifyVariable id fun v => { v with references := v.references + 1 }).modifyVariable id
          f := by
      rw [modifyVariable_modifyVariable]
      exact congrArg (s.modifyVariable id) (funext fun v => (hf v).symm)
    rw [hcomm]
    rfl

/-- A bound constraint that is in step stays as it is. -/
theorem syncBound_of_endKept {k : Option ConstraintId} {relation : Relation} {limit : α}
    {narrowed : Prop} [Decidable narrowed] (h : s.registry.EndKept id k relation limit narrowed) :
    s.syncBound id k relation limit (decide narrowed) = (k, s) := by
  cases k with
  | none =>
    rw [decide_eq_false fun hnarrowed => absurd (h.1.2 hnarrowed) (by simp)]
    rfl
  | some bound =>
    rw [decide_eq_true (h.1.1 rfl)]
    obtain ⟨c, hc, hbound⟩ := h.2 bound rfl
    have hstore : s.constraintStore.modify bound.slot (fun c => { c with right := limit })
        = s.constraintStore := by
      refine SlotStore.modify_eq_self hc ?_
      rw [← hbound.right]
    show (some bound, { s with constraintStore := s.constraintStore.modify bound.slot _ })
      = (some bound, s)
    rw [hstore]

theorem extent?_syncBound {relation : Relation} {limit : α} {needed : Bool}
    {k : Option ConstraintId} (h : s.syncBound id none relation limit needed = (k, t))
    (w : VariableId) : t.registry.extent? w = s.registry.extent? w := by
  cases needed with
  | false =>
    obtain ⟨-, rfl⟩ := Prod.mk.inj h
    rfl
  | true =>
    obtain ⟨-, rfl⟩ := Prod.mk.inj h
    exact extent?_place s _ w

section Unbound

variable {v : Variable α} {lower upper : α} {k k' : Option ConstraintId}

/-- The range of a variable without bound constraints is set. -/
theorem applyRange_of_unbound (hv : s.getVariable? id = some v) (hlower : v.lowerBound = none)
    (hupper : v.upperBound = none)
    (hk : s.syncBound id none .ge lower (Variable.defaultLower < lower) = (k, t))
    (hk' : t.syncBound id none .le upper (upper < Variable.defaultUpper) = (k', u)) :
    s.applyRange id lower upper = u.modifyVariable id fun v =>
      { v with lower, upper, lowerBound := k, upperBound := k' } := by
  obtain ⟨s₁, s₂, s₃, lowerBound, upperBound, hstages⟩ := exists_rangeStages hv lower upper
  have hfirst := hstages.lowerEnd
  rw [hlower, hstages.ends, syncBound_modifyVariable _ _ _ (fun _ => rfl) hk] at hfirst
  obtain ⟨rfl, rfl⟩ := Prod.mk.inj hfirst
  have hsecond := hstages.upperEnd
  rw [hupper, syncBound_modifyVariable _ _ _ (fun _ => rfl) hk'] at hsecond
  obtain ⟨rfl, rfl⟩ := Prod.mk.inj hsecond
  rw [hstages.links, modifyVariable_modifyVariable]

/-- The default upper end has no bound constraint. -/
theorem syncBound_defaultUpper [RangeScalar α] (t : Spec α) (id : VariableId) :
    t.syncBound id none .le (Variable.defaultUpper : α)
      (Variable.defaultUpper < (Variable.defaultUpper : α)) = (none, t) := by
  rw [decide_eq_false RangeScalar.defaultUpper_not_lt]
  rfl

/-- **Setting the ends of a range one after the other** is setting both at once, if the variable had
no bound constraints. -/
theorem applyRange_applyRange [RangeScalar α] (hv : s.getVariable? id = some v)
    (hlower : v.lowerBound = none) (hupper : v.upperBound = none)
    (howned : (s.applyRange id lower Variable.defaultUpper).registry.Owned none) :
    (s.applyRange id lower Variable.defaultUpper).applyRange id lower upper
      = s.applyRange id lower upper := by
  obtain ⟨⟨k, t⟩, hk⟩ : ∃ p, s.syncBound id none .ge lower (Variable.defaultLower < lower) = p :=
    ⟨_, rfl⟩
  obtain ⟨⟨k', u⟩, hk'⟩ :
    ∃ p, t.syncBound id none .le upper (upper < Variable.defaultUpper) = p := ⟨_, rfl⟩
  rw [applyRange_of_unbound hv hlower hupper hk hk']
  rw [applyRange_of_unbound hv hlower hupper hk (syncBound_defaultUpper t id)] at howned ⊢
  -- The variable after the first step, with its lower bound in step.
  obtain ⟨w, hw, -⟩ : ∃ w, t.getVariable? id = some w ∧ w.extent = v.extent := by
    refine getVariable?_of_extent? ?_
    rw [extent?_syncBound hk]
    exact registry_extent?_eq_some hv
  have hw' := getVariable?_modifyVariable t id id fun v =>
    { v with lower, upper := Variable.defaultUpper, lowerBound := k, upperBound := none }
  rw [if_pos rfl, hw, Option.map_some] at hw'
  have hkept : (t.modifyVariable id fun v => { v with
      lower, upper, lowerBound := k, upperBound := none }).registry.EndKept id k .ge lower
        (Variable.defaultLower < lower) :=
    (howned.range id _ (registry_extent?_eq_some hw')).lower
  -- The second step.
  obtain ⟨s₁, s₂, s₃, lowerBound, upperBound, hstages⟩ := exists_rangeStages hw' lower upper
  have hfirst := hstages.lowerEnd
  rw [hstages.ends, modifyVariable_modifyVariable] at hfirst
  dsimp only at hfirst
  rw [syncBound_of_endKept hkept] at hfirst
  obtain ⟨rfl, rfl⟩ := Prod.mk.inj hfirst
  have hsecond := hstages.upperEnd
  dsimp only at hsecond
  rw [syncBound_modifyVariable _ _ _ (fun _ => rfl) hk'] at hsecond
  obtain ⟨rfl, rfl⟩ := Prod.mk.inj hsecond
  rw [hstages.links, modifyVariable_modifyVariable]

/-- Room for both bound constraints is room for the first. -/
theorem addressable_applyRange_default [RangeScalar α] (hv : s.getVariable? id = some v)
    (hlower : v.lowerBound = none) (hupper : v.upperBound = none)
    (hroom : (s.applyRange id lower upper).Addressable) :
    (s.applyRange id lower Variable.defaultUpper).Addressable := by
  obtain ⟨⟨k, t⟩, hk⟩ : ∃ p, s.syncBound id none .ge lower (Variable.defaultLower < lower) = p :=
    ⟨_, rfl⟩
  obtain ⟨⟨k', u⟩, hk'⟩ :
    ∃ p, t.syncBound id none .le upper (upper < Variable.defaultUpper) = p := ⟨_, rfl⟩
  rw [applyRange_of_unbound hv hlower hupper hk hk'] at hroom
  rw [applyRange_of_unbound hv hlower hupper hk (syncBound_defaultUpper t id)]
  have hu := (u.evolves_modifyVariable id _).addressable hroom
  have ht : t.Addressable := by
    refine (evolves_syncBound t id none .le upper (upper < Variable.defaultUpper)).addressable ?_
    rw [hk']
    exact hu
  have hevolves := t.evolves_modifyVariable id fun v =>
    { v with lower, upper := Variable.defaultUpper, lowerBound := k, upperBound := none }
  exact ⟨hevolves.le_variables.trans ht.1, hevolves.le_constraints.trans ht.2⟩

end Unbound

theorem setRange_of_isUserVariable (h : s.isUserVariable id = true) (lower upper : α) :
    s.setRange id lower upper = if isRange lower upper then .ok (s.applyRange id lower upper)
      else .error (.invalidRange lower upper) :=
  if_pos h

/-- A lower end that is set first is checked against the default upper end. -/
theorem isRange_default_iff [RangeOrder α] {lower : α} :
    isRange lower Variable.defaultUpper = true ↔
      Scalar.isNaN lower = false ∧ ¬Variable.defaultUpper < lower := by
  have hdefault := RangeOrder.isRange_default (α := α)
  unfold isRange at hdefault ⊢
  simp only [Bool.and_eq_true, Bool.not_eq_true', decide_eq_false_iff_not] at hdefault ⊢
  simp [hdefault.1.2]

/-- Both checks pass if the range is one, and begins within the default range. -/
theorem isRange_both_iff [RangeOrder α] {lower upper : α} :
    isRange lower Variable.defaultUpper = true ∧ isRange lower upper = true ↔
      isRange lower upper = true ∧ ¬Variable.defaultUpper < lower := by
  rw [isRange_default_iff]
  constructor
  · rintro ⟨⟨-, hle⟩, hrange⟩
    exact ⟨hrange, hle⟩
  · rintro ⟨hrange, hle⟩
    refine ⟨⟨?_, hle⟩, hrange⟩
    unfold isRange at hrange
    simp only [Bool.and_eq_true, Bool.not_eq_true'] at hrange
    exact hrange.1.1

/-- The upper end of the last variable is set after the lower end. -/
theorem Lists.setUpper_applyRange [RangeOrder α] {vs : List (VariableId × PlainVariable α)}
    {cs : List (ConstraintId × PlainConstraint α)} {label : Option String} {lower upper : α}
    (h : s.Lists (vs ++ [(id, ⟨Variable.defaultLower, Variable.defaultUpper, label⟩)]) cs)
    (hv : s.getVariable? id = some (Variable.fresh label false))
    (hdefault : isRange lower (Variable.defaultUpper : α) = true)
    (hroom : (s.applyRange id lower upper).Addressable) :
    (s.applyRange id lower Variable.defaultUpper).setUpper id upper = if isRange lower upper
      then .ok (s.applyRange id lower upper) else .error (.invalidRange lower upper) := by
  have huser : s.isUserVariable id = true := (s.isUserVariable_iff id).2 ⟨_, hv, rfl⟩
  have hset : s.setRange id lower Variable.defaultUpper
      = .ok (s.applyRange id lower Variable.defaultUpper) := by
    rw [setRange_of_isUserVariable huser, if_pos hdefault]
  have hlists := h.setRange hset (addressable_applyRange_default hv rfl rfl hroom)
    (fun hnarrowed => absurd hnarrowed RangeScalar.defaultLower_not_lt) fun hnarrowed => hnarrowed
  obtain ⟨w, hw, hslack, hends⟩ := plainVariable?_eq_some.1 hlists.variableEntries.table_eq_some
  obtain ⟨hlower, -, -⟩ := PlainVariable.mk.inj hends
  have huser' := ((s.applyRange id lower Variable.defaultUpper).isUserVariable_iff id).2
    ⟨w, hw, hslack⟩
  unfold setUpper
  rw [hw]
  dsimp only
  rw [← hlower, setRange_of_isUserVariable huser', applyRange_applyRange hv rfl rfl hlists.owned]

end Spec

/-! ### One declaration -/

namespace LoadedModel

variable [Scalar α] {m n : LoadedModel α} {entries : List (VariableEntry α)}
  {cs : List (ConstraintId × PlainConstraint α)} {entry : VariableEntry α} {id : VariableId}
  {s : Spec α} {lower upper : α}

/-- Declare a variable, and set both ends of its range at once. -/
def declareAtOnce (m : LoadedModel α) (name : String) (lower upper : α) :
    Except (ModelError α) (LoadedModel α) := do
  let (id, s) := m.spec.addVariable (some name)
  let s ← (s.setRange id lower upper).mapError .rejected
  return ⟨s, m.names ++ [(name, id)]⟩

theorem declare_of_new (hnew : m.lookup? entry.name = none)
    (haddition : m.spec.addVariable (some entry.name) = (id, s)) (hlower : entry.lower = some lower)
    (hupper : entry.upper = some upper) : m.declare entry = (do
      let t ← (s.setLower id lower).mapError .rejected
      let u ← (t.setUpper id upper).mapError .rejected
      return ⟨u, m.names ++ [(entry.name, id)]⟩) := by
  unfold declare
  rw [hnew, haddition, hlower, hupper]
  rfl

/-- The variable that has been added is one of the caller. -/
theorem Holds.getVariable?_addition (h : m.Holds entries cs)
    (haddition : m.spec.addVariable (some entry.name) = (id, s)) (hroom : s.Addressable) :
    s.getVariable? id = some (Variable.fresh (some entry.name) false) := by
  have hlive := Spec.getVariable?_addVariable h.lists.unvacated.tidy (some entry.name)
  rw [haddition] at hlive
  exact hlive hroom

theorem declareAtOnce_eq (haddition : m.spec.addVariable (some entry.name) = (id, s))
    (huser : s.isUserVariable id = true) (lower upper : α) :
    m.declareAtOnce entry.name lower upper = if Spec.isRange lower upper
      then .ok ⟨s.applyRange id lower upper, m.names ++ [(entry.name, id)]⟩
      else .error (.rejected (.invalidRange lower upper)) := by
  unfold declareAtOnce
  rw [haddition]
  dsimp only
  rw [Spec.setRange_of_isUserVariable huser]
  split
  · rfl
  · rfl

/-- **A declaration sets both ends at once**, after the lower end has passed a check against the
default upper end. -/
theorem Holds.declare_eq [RangeOrder α] (h : m.Holds entries cs)
    (hnew : m.lookup? entry.name = none)
    (haddition : m.spec.addVariable (some entry.name) = (id, s)) (hlower : entry.lower = some lower)
    (hupper : entry.upper = some upper) (hroom : (s.applyRange id lower upper).Addressable) :
    m.declare entry = if Spec.isRange lower (Variable.defaultUpper : α)
      then m.declareAtOnce entry.name lower upper
      else .error (.rejected (.invalidRange lower Variable.defaultUpper)) := by
  have hroom₁ := (s.evolves_applyRange id lower upper).addressable hroom
  have hadded := h.lists_added haddition hroom₁
  have hv := h.getVariable?_addition haddition hroom₁
  have huser : s.isUserVariable id = true := (s.isUserVariable_iff id).2 ⟨_, hv, rfl⟩
  have hfirst : s.setLower id lower = s.setRange id lower Variable.defaultUpper := by
    unfold Spec.setLower
    rw [hv]
    rfl
  rw [declare_of_new hnew haddition hlower hupper, hfirst, Spec.setRange_of_isUserVariable huser]
  by_cases hdefault : Spec.isRange lower (Variable.defaultUpper : α) = true
  · rw [if_pos hdefault, if_pos hdefault]
    show (do
      let u ← ((s.applyRange id lower Variable.defaultUpper).setUpper id upper).mapError .rejected
      return ⟨u, m.names ++ [(entry.name, id)]⟩ : Except (ModelError α) (LoadedModel α)) = _
    rw [hadded.setUpper_applyRange hv hdefault hroom, ← Spec.setRange_of_isUserVariable huser]
    unfold declareAtOnce
    rw [haddition]
  · rw [if_neg hdefault, if_neg hdefault]
    rfl

/-- A declaration is rejected for its range if one of the two checks fails. -/
theorem Holds.declare_invalidRange_iff [RangeOrder α] (h : m.Holds entries cs)
    (hnew : m.lookup? entry.name = none)
    (haddition : m.spec.addVariable (some entry.name) = (id, s)) (hlower : entry.lower = some lower)
    (hupper : entry.upper = some upper) (hroom : (s.applyRange id lower upper).Addressable) :
    (∃ x y, m.declare entry = .error (.rejected (.invalidRange x y))) ↔
      Spec.isRange lower upper = false ∨ Variable.defaultUpper < lower := by
  have hv := h.getVariable?_addition haddition ((s.evolves_applyRange id lower upper).addressable
    hroom)
  have huser : s.isUserVariable id = true := (s.isUserVariable_iff id).2 ⟨_, hv, rfl⟩
  have hpasses : (Spec.isRange lower upper = false ∨ Variable.defaultUpper < lower) ↔
      ¬(Spec.isRange lower (Variable.defaultUpper : α) = true ∧
        Spec.isRange lower upper = true) := by
    rw [Spec.isRange_both_iff, not_and_or, not_not, Bool.not_eq_true]
  rw [hpasses, h.declare_eq hnew haddition hlower hupper hroom,
    declareAtOnce_eq haddition huser]
  by_cases hdefault : Spec.isRange lower (Variable.defaultUpper : α) = true
  · rw [if_pos hdefault]
    by_cases hrange : Spec.isRange lower upper = true
    · rw [if_pos hrange]
      exact ⟨fun ⟨x, y, hok⟩ => absurd hok (by simp), fun hno => absurd ⟨hdefault, hrange⟩ hno⟩
    · rw [if_neg hrange]
      exact ⟨fun _ hboth => hrange hboth.2, fun _ => ⟨lower, upper, rfl⟩⟩
  · rw [if_neg hdefault]
    exact ⟨fun _ hboth => hdefault hboth.1, fun _ => ⟨lower, Variable.defaultUpper, rfl⟩⟩

end LoadedModel

/-! ### The whole file -/

namespace ModelFile

variable [Scalar α] [RangeOrder α] {file : ModelFile α} {options : Options α}
  {before after : List (VariableEntry α)} {entry : VariableEntry α} {m n : LoadedModel α}
  {id : VariableId} {s : Spec α} {lower upper : α}

omit [RangeOrder α] in
/-- A file that is accepted up to a declaration goes on with it. -/
theorem build_eq (hfile : file.variableEntries = before ++ entry :: after)
    (hbefore : before.foldlM LoadedModel.declare ⟨{ options }, []⟩ = .ok m) :
    file.build options = (do
      let n ← m.declare entry
      let declared ← after.foldlM LoadedModel.declare n
      declared.imposeAll file.constraintEntries 0) := by
  unfold build declareAll
  rw [hfile, List.foldlM_append, hbefore, bind_assoc]
  show (List.foldlM LoadedModel.declare m (entry :: after) >>= _) = _
  rw [List.foldlM_cons, bind_assoc]

omit [RangeOrder α] in
/-- A file is rejected with its first declaration that is. -/
theorem build_error_of_declare (hfile : file.variableEntries = before ++ entry :: after)
    (hbefore : before.foldlM LoadedModel.declare ⟨{ options }, []⟩ = .ok m) {e : ModelError α}
    (h : m.declare entry = .error e) : file.build options = .error e := by
  rw [build_eq hfile hbefore, h]
  rfl

omit [RangeOrder α] in
/-- The name of a declaration comes behind the names before. -/
theorem exists_names_of_build (hfile : file.variableEntries = before ++ entry :: after)
    (hbefore : before.foldlM LoadedModel.declare ⟨{ options }, []⟩ = .ok m)
    (haddition : m.spec.addVariable (some entry.name) = (id, s))
    (hn : file.build options = .ok n) : ∃ rest, n.names = m.names ++ (entry.name, id) :: rest := by
  rw [build_eq hfile hbefore] at hn
  obtain ⟨m', hm', hn⟩ := bind_ok hn
  obtain ⟨declared, hdeclared, himposed⟩ := bind_ok hn
  obtain ⟨id', added, narrowed, hdeclares⟩ := LoadedModel.exists_declares hm'
  obtain ⟨rfl, -⟩ := Prod.mk.inj (haddition.symm.trans hdeclares.addition)
  obtain ⟨rest, hrest, -⟩ := LoadedModel.exists_names_append hdeclared
  refine ⟨rest, ?_⟩
  rw [LoadedModel.names_imposeAll himposed, hrest, hdeclares.names, List.append_assoc]
  rfl

/-- In the end the variable of a declaration is as declared. -/
theorem exists_variable_of_build (hfile : file.variableEntries = before ++ entry :: after)
    (hbefore : before.foldlM LoadedModel.declare ⟨{ options }, []⟩ = .ok m)
    (haddition : m.spec.addVariable (some entry.name) = (id, s))
    (hn : file.build options = .ok n) (hroom : n.spec.Addressable) :
    n.lookup? entry.name = some id ∧ ∃ v, n.spec.getVariable? id = some v ∧ entry.Fits v := by
  obtain ⟨cs, hheld, -⟩ := holds_of_build hn hroom
  obtain ⟨rest, hnames⟩ := exists_names_of_build hfile hbefore haddition hn
  have hmem : (entry.name, id) ∈ n.names := by
    rw [hnames]
    exact List.mem_append_right _ List.mem_cons_self
  refine ⟨(LoadedModel.lookup?_eq_some_iff hheld.nodup).2 hmem, ?_⟩
  have hlength : before.length = m.names.length := by
    have hfirst := congrArg List.length (LoadedModel.names_foldlM_declare hbefore)
    simpa using hfirst.symm
  have hdeclared := hheld.declared
  rw [hfile, hnames] at hdeclared
  have hrest := List.forall₂_drop_append _ _ _ hdeclared
  rw [List.drop_left' hlength] at hrest
  obtain ⟨v, hv, -, hfits⟩ := (List.forall₂_cons.1 hrest).1
  exact ⟨v, hv, hfits⟩

/-- **The ranges that a file may give.**  A declaration that gives both ends of a range, under a new
name and after declarations that are accepted, is rejected for its range exactly if the range is
none, or begins above the default upper end.  Up to there the file goes on as if both ends were set
at once; and in the end the variable of that name has the range that was given, with a bound
constraint for each narrowed end. -/
theorem range_loaded (hfile : file.variableEntries = before ++ entry :: after)
    (hnames : (file.variableEntries.map VariableEntry.name).Nodup)
    (hbefore : before.foldlM LoadedModel.declare ⟨{ options }, []⟩ = .ok m)
    (hlower : entry.lower = some lower) (hupper : entry.upper = some upper)
    (haddition : m.spec.addVariable (some entry.name) = (id, s))
    (hroom : (s.applyRange id lower upper).Addressable) :
    ((∃ x y, m.declare entry = .error (.rejected (.invalidRange x y)) ∧
        file.build options = .error (.rejected (.invalidRange x y))) ↔
      Spec.isRange lower upper = false ∨ Variable.defaultUpper < lower) ∧
    (Scalar.isNaN lower = false → ¬Variable.defaultUpper < lower → file.build options = (do
      let n ← m.declareAtOnce entry.name lower upper
      let declared ← after.foldlM LoadedModel.declare n
      declared.imposeAll file.constraintEntries 0)) ∧
    ∀ n, file.build options = .ok n → n.spec.Addressable → n.lookup? entry.name = some id ∧
      ∃ v, n.spec.getVariable? id = some v ∧ v.lower = lower ∧ v.upper = upper ∧
        n.spec.RangeEnforced id v := by
  have hroom₁ := (s.evolves_applyRange id lower upper).addressable hroom
  have hheld : m.Holds before [] := by
    refine LoadedModel.holds_of_foldlM_declare hbefore ?_
    obtain rfl : (m.spec.addVariable (some entry.name)).2 = s := congrArg Prod.snd haddition
    exact (m.spec.evolves_insertVariable _).addressable hroom₁
  have hnew : m.lookup? entry.name = none := by
    rw [hfile, List.map_append, List.map_cons, List.nodup_append] at hnames
    rw [LoadedModel.lookup?_eq_none_iff, hheld.names]
    exact fun hmem => hnames.2.2 _ hmem _ List.mem_cons_self rfl
  have hrejected : (∃ x y, m.declare entry = .error (.rejected (.invalidRange x y)) ∧
      file.build options = .error (.rejected (.invalidRange x y))) ↔
        Spec.isRange lower upper = false ∨ Variable.defaultUpper < lower := by
    rw [← hheld.declare_invalidRange_iff hnew haddition hlower hupper hroom]
    constructor
    · rintro ⟨x, y, hdeclare, -⟩
      exact ⟨x, y, hdeclare⟩
    · rintro ⟨x, y, hdeclare⟩
      exact ⟨x, y, hdeclare, build_error_of_declare hfile hbefore hdeclare⟩
  refine ⟨hrejected, fun hnan hle => ?_, fun n hn hroomₙ => ?_⟩
  · rw [build_eq hfile hbefore, hheld.declare_eq hnew haddition hlower hupper hroom,
      if_pos (Spec.isRange_default_iff.2 ⟨hnan, hle⟩)]
  · obtain ⟨hlookup, v, hv, hfits⟩ :=
      exists_variable_of_build hfile hbefore haddition hn hroomₙ
    obtain ⟨cs, hheldₙ, -⟩ := holds_of_build hn hroomₙ
    have hlow : v.lower = lower := by rw [hfits.lower, hlower, Option.getD_some]
    have hupp : v.upper = upper := by rw [hfits.upper, hupper, Option.getD_some]
    refine ⟨hlookup, v, hv, hlow, hupp, Spec.rangeEnforced hheldₙ.lists.owned hv ?_⟩
    rw [hlow, hupp]
    by_contra hrange
    obtain ⟨x, y, -, herror⟩ := hrejected.2 (.inl (Bool.not_eq_true _ ▸ hrange))
    rw [hn] at herror
    exact absurd herror (by simp)

/-- The pane of the file has the range that the file gives it, and both ends are enforced. -/
theorem range_loaded_paned :
    ∃ n, paned.build .default = .ok n ∧ n.lookup? "pane" = some ⟨⟨0, 0⟩⟩ ∧
      ∃ v, n.spec.getVariable? ⟨⟨0, 0⟩⟩ = some v ∧ v.lower = 10.0 ∧ v.upper = 500.0 ∧
        n.spec.RangeEnforced ⟨⟨0, 0⟩⟩ v := by
  have haccepted : (paned.build .default).isOk = true := by decide
  cases hn : paned.build .default with
  | error e =>
    rw [hn] at haccepted
    exact absurd haccepted (by simp [Except.isOk, Except.toBool])
  | ok n =>
    have hfile : paned.variableEntries
        = [] ++ ⟨"pane", some 10.0, some 500.0⟩ :: [⟨"split", none, none⟩] := rfl
    have hbefore : ([] : List (VariableEntry Float)).foldlM LoadedModel.declare
        ⟨{ options := .default }, []⟩ = .ok ⟨{ options := .default }, []⟩ := rfl
    have hroom : ((({ options := .default } : Spec Float).addVariable (some "pane")).2.applyRange
        ⟨⟨0, 0⟩⟩ 10.0 500.0).Addressable := by
      refine ⟨?_, ?_⟩
      · show _ ≤ _
        decide
      · show _ ≤ _
        decide
    obtain ⟨-, -, hfinal⟩ := range_loaded hfile (by decide) hbefore rfl rfl rfl hroom
    obtain ⟨hlookup, v, hv, hlower, hupper, henforced⟩ :=
      hfinal n hn (addressable_of_build hn (by decide))
    exact ⟨n, rfl, hlookup, v, hv, hlower, hupper, henforced⟩

/-- A pane that begins above the default range. -/
def farPaned : ModelFile Float := ⟨[⟨"pane", some 25000.0, some 30000.0⟩], []⟩

/-- **A proper range may be rejected**: 25000 to 30000 is a range that can be set, but no file can
give it. -/
theorem proper_range_may_be_rejected :
    ¬∀ (file : ModelFile Float) (options : Options Float)
      (before after : List (VariableEntry Float)) (entry : VariableEntry Float)
      (m : LoadedModel Float) (lower upper : Float),
      file.variableEntries = before ++ entry :: after →
      (file.variableEntries.map VariableEntry.name).Nodup →
      before.foldlM LoadedModel.declare ⟨{ options }, []⟩ = .ok m →
      entry.lower = some lower → entry.upper = some upper →
      ((∃ x y, m.declare entry = .error (.rejected (.invalidRange x y)) ∧
          file.build options = .error (.rejected (.invalidRange x y))) ↔
        Spec.isRange lower upper = false) := by
  intro h
  have hiff := h farPaned .default [] [] ⟨"pane", some 25000.0, some 30000.0⟩
    ⟨{ options := .default }, []⟩ 25000.0 30000.0 rfl (by decide) rfl rfl rfl
  exact absurd (hiff.1 ⟨25000.0, 20000.0, rfl, rfl⟩) (by decide)

end ModelFile

end ElasticLayout
