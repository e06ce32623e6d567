import ElasticLayout.ModelFile.Build
import ElasticLayout.Proofs.CallerLists
import ElasticLayout.Proofs.ElasticOwnership

/-!
# Loading a model file

A file that is accepted makes a specification in which the caller has added what the file lists, in
the order of the file.  One entry is a few calls; each of them appends to the lists of the caller or
changes what was appended last, whatever bounds, slacks and penalties are made on the way.

* `LoadedModel.Declares`, `LoadedModel.Enters` -- what taking in one entry consists of;
* `LoadedModel.Holds` -- what has been taken in so far;
* `LoadedModel.Holds.declare`, `LoadedModel.Holds.impose` -- one more entry is taken in;
* `LoadedModel.holds_of_foldlM_declare`, `LoadedModel.Holds.imposeAll` -- all entries are;
* `LoadedModel.Represents` -- names and specification are those of the file;
* `ModelFile.build_faithful` -- the main result, which also says what the errors mean.
-/

namespace ElasticLayout

variable {α : Type}

/-! ### Computations that may be rejected -/

theorem mapError_ok {ε ε' β : Type} {f : ε → ε'} {x : Except ε β} {b : β}
    (h : x.mapError f = .ok b) : x = .ok b := by
  cases x with
  | error e => exact absurd h (by simp [Except.mapError])
  | ok a => exact congrArg Except.ok (Except.ok.inj h)

theorem mapError_error {ε ε' β : Type} {f : ε → ε'} {x : Except ε β} {e : ε'}
    (h : x.mapError f = .error e) : ∃ reason, x = .error reason ∧ e = f reason := by
  cases x with
  | error reason => exact ⟨reason, rfl, (Except.error.inj h).symm⟩
  | ok a => exact absurd h (by simp [Except.mapError])

/-- A computation is rejected in its first part or in the rest. -/
theorem bind_error {ε β γ : Type} {x : Except ε β} {f : β → Except ε γ} {e : ε}
    (h : x >>= f = .error e) : x = .error e ∨ ∃ a, x = .ok a ∧ f a = .error e := by
  cases x with
  | error e' => exact .inl (congrArg Except.error (Except.error.inj h))
  | ok a => exact .inr ⟨a, rfl, h⟩

/-- A list of computations succeeds if each of them does. -/
theorem mapM_ok {ε β γ : Type} {f : β → Except ε γ} {xs : List β} {ys : List γ}
    (h : xs.mapM f = .ok ys) : List.Forall₂ (fun x y => f x = .ok y) xs ys := by
  induction xs generalizing ys with
  | nil =>
    obtain rfl := Except.ok.inj h
    exact .nil
  | cons x xs ih =>
    rw [List.mapM_cons] at h
    obtain ⟨y, hy, h⟩ := bind_ok h
    obtain ⟨rest, hrest, h⟩ := bind_ok h
    obtain rfl := Except.ok.inj h
    exact .cons hy (ih hrest)

theorem mapM_error {ε β γ : Type} {f : β → Except ε γ} {xs : List β} {e : ε}
    (h : xs.mapM f = .error e) : ∃ x ∈ xs, f x = .error e := by
  induction xs with
  | nil => exact absurd h (by simp [pure, Except.pure])
  | cons x xs ih =>
    rw [List.mapM_cons] at h
    obtain hx | ⟨y, -, h⟩ := bind_error h
    · exact ⟨x, List.mem_cons_self, hx⟩
    · obtain hxs | ⟨ys, -, h⟩ := bind_error h
      · obtain ⟨z, hz, hfz⟩ := ih hxs
        exact ⟨z, List.mem_cons_of_mem x hz, hfz⟩
      · exact absurd h (by simp [pure, Except.pure])

/-- The entry at which a run over a list is rejected. -/
theorem foldlM_error {ε β γ : Type} {f : γ → β → Except ε γ} {xs : List β} {c : γ} {e : ε}
    (h : xs.foldlM f c = .error e) : ∃ before x after d, xs = before ++ x :: after ∧
      before.foldlM f c = .ok d ∧ f d x = .error e := by
  induction xs generalizing c with
  | nil => exact absurd h (by simp [pure, Except.pure])
  | cons x xs ih =>
    rw [List.foldlM_cons] at h
    obtain hx | ⟨c', hc', h⟩ := bind_error h
    · exact ⟨[], x, xs, c, rfl, rfl, hx⟩
    · obtain ⟨before, y, after, d, rfl, hbefore, hy⟩ := ih h
      refine ⟨x :: before, y, after, d, rfl, ?_, hy⟩
      rw [List.foldlM_cons, hc']
      exact hbefore

/-! ### What the entries of a file describe -/

namespace LoadedModel

variable {m n : LoadedModel α} {name : String} {id : VariableId}

theorem lookup?_eq_none_iff : m.lookup? name = none ↔ name ∉ m.names.map Prod.fst := by
  unfold lookup?
  rw [Option.map_eq_none_iff, List.find?_eq_none, List.mem_map]
  constructor
  · rintro hnone ⟨p, hp, rfl⟩
    exact hnone p hp (beq_self_eq_true p.1)
  · intro hname p hp heq
    exact hname ⟨p, hp, beq_iff_eq.1 heq⟩

/-- Names that are told apart are looked up. -/
theorem lookup?_eq_some_iff (h : (m.names.map Prod.fst).Nodup) :
    m.lookup? name = some id ↔ (name, id) ∈ m.names := by
  unfold lookup?
  rw [Option.map_eq_some_iff]
  constructor
  · rintro ⟨p, hp, rfl⟩
    obtain rfl : p.1 = name := by simpa using List.find?_some hp
    exact List.mem_of_find?_eq_some hp
  · intro hmem
    obtain ⟨p, hp⟩ : ∃ p, m.names.find? (·.1 == name) = some p := by
      rw [← Option.isSome_iff_exists, List.find?_isSome]
      exact ⟨_, hmem, beq_self_eq_true name⟩
    have hname : p.1 = name := by simpa using List.find?_some hp
    exact ⟨p, hp, by rw [List.inj_on_of_nodup_map h (List.mem_of_find?_eq_some hp) hmem hname]⟩

/-- The summands that terms describe; none if a name is not declared. -/
def summands? (m : LoadedModel α) (terms : List (Term α)) : Option (List (Summand α)) :=
  terms.mapM fun term => (m.lookup? term.name).map (Summand.mk term.coefficient)

/-- The constraint that an entry describes; none if a name is not declared. -/
def constraint? [Add α] (m : LoadedModel α) (entry : ConstraintEntry α) :
    Option (PlainConstraint α) :=
  (m.summands? entry.terms).map fun terms => ⟨mergeSummands terms, entry.relation, entry.right,
    entry.penaltyAbove, entry.penaltyBelow, entry.label⟩

theorem summands?_congr (h : n.names = m.names) : n.summands? = m.summands? := by
  unfold summands? lookup?
  rw [h]

theorem constraint?_congr [Add α] (h : n.names = m.names) : n.constraint? = m.constraint? := by
  unfold constraint?
  rw [summands?_congr h]

theorem summands?_eq_some {terms : List (Term α)} {ids : List VariableId}
    (h : List.Forall₂ (fun term id => m.lookup? term.name = some id) terms ids) :
    m.summands? terms = some (List.zipWith Summand.mk (terms.map (·.coefficient)) ids) := by
  unfold summands?
  induction h with
  | nil => rfl
  | cons hid _ ih =>
    rw [List.mapM_cons, hid, ih]
    rfl

/-- Terms are resolved to the summands they describe. -/
theorem resolve_ok {index : Nat} {terms : List (Term α)} {coefficients : List α}
    {ids : List VariableId} (h : m.resolve index terms = .ok (coefficients, ids)) :
    m.summands? terms = some (List.zipWith Summand.mk coefficients ids) := by
  obtain ⟨ids', hids, hpair⟩ := bind_ok h
  obtain ⟨rfl, rfl⟩ := Prod.mk.inj (Except.ok.inj hpair)
  refine summands?_eq_some ((mapM_ok hids).imp fun term id hid => ?_)
  split at hid
  · rw [← Except.ok.inj hid]
    assumption
  · exact absurd hid (by simp)

/-- Terms are rejected for a name that is not declared. -/
theorem resolve_error {index : Nat} {terms : List (Term α)} {e : ModelError α}
    (h : m.resolve index terms = .error e) :
    ∃ term ∈ terms, m.lookup? term.name = none ∧ e = .unknownVariable index term.name := by
  obtain h | ⟨ids, -, h⟩ := bind_error h
  · obtain ⟨term, hterm, h⟩ := mapM_error h
    split at h
    · exact absurd h (by simp)
    · exact ⟨term, hterm, ‹_›, (Except.error.inj h).symm⟩
  · exact absurd h (by simp [pure, Except.pure])

end LoadedModel

variable [Scalar α]

/-- The variable that an entry describes. -/
def VariableEntry.plain (entry : VariableEntry α) : PlainVariable α :=
  ⟨entry.lower.getD Variable.defaultLower, entry.upper.getD Variable.defaultUpper,
    some entry.name⟩

/-! ### One entry -/

namespace LoadedModel

variable {m n : LoadedModel α}

omit [Scalar α] in
theorem narrow_ok {s t : Spec α} {limit : Option α}
    {set : Spec α → α → Except (SpecError α) (Spec α)} (h : narrow s limit set = .ok t) :
    limit = none ∧ t = s ∨ ∃ x, limit = some x ∧ set s x = .ok t := by
  cases limit with
  | none => exact .inl ⟨rfl, (Except.ok.inj h).symm⟩
  | some x => exact .inr ⟨x, rfl, mapError_ok h⟩

omit [Scalar α] in
theorem narrow_error {s : Spec α} {limit : Option α}
    {set : Spec α → α → Except (SpecError α) (Spec α)} {e : ModelError α}
    (h : narrow s limit set = .error e) :
    ∃ x reason, limit = some x ∧ set s x = .error reason ∧ e = .rejected reason := by
  cases limit with
  | none => exact absurd h (by simp [narrow])
  | some x =>
    obtain ⟨reason, hset, rfl⟩ := mapError_error h
    exact ⟨x, reason, rfl, hset, rfl⟩

/-- A declaration adds a variable under a new name, and sets the ends of its range one after the
other. -/
structure Declares (m n : LoadedModel α) (entry : VariableEntry α) (id : VariableId)
    (added narrowed : Spec α) : Prop where
  isNew : m.lookup? entry.name = none
  addition : m.spec.addVariable (some entry.name) = (id, added)
  lowerEnd : narrow added entry.lower (·.setLower id ·) = .ok narrowed
  upperEnd : narrow narrowed entry.upper (·.setUpper id ·) = .ok n.spec
  names : n.names = m.names ++ [(entry.name, id)]

theorem exists_declares {entry : VariableEntry α} (h : m.declare entry = .ok n) :
    ∃ id added narrowed, m.Declares n entry id added narrowed := by
  unfold declare at h
  split at h
  · exact absurd h (by simp)
  · rename_i hnew
    obtain ⟨narrowed, hlower, h⟩ := bind_ok h
    obtain ⟨t, hupper, h⟩ := bind_ok h
    obtain rfl := Except.ok.inj h
    exact ⟨_, _, narrowed, by simpa using hnew, rfl, hlower, hupper, rfl⟩

/-- A declaration is rejected for its name or for its range. -/
theorem declare_error {entry : VariableEntry α} {e : ModelError α}
    (h : m.declare entry = .error e) :
    e = .duplicateVariable entry.name ∧ entry.name ∈ m.names.map Prod.fst ∨
      ∃ reason, e = .rejected reason := by
  unfold declare at h
  split at h
  · rename_i hold
    refine .inl ⟨(Except.error.inj h).symm, ?_⟩
    by_contra hname
    rw [lookup?_eq_none_iff.2 hname] at hold
    exact absurd hold (by simp)
  · right
    obtain h | ⟨narrowed, -, h⟩ := bind_error h
    · obtain ⟨x, reason, -, -, rfl⟩ := narrow_error h
      exact ⟨reason, rfl⟩
    · obtain h | ⟨t, -, h⟩ := bind_error h
      · obtain ⟨x, reason, -, -, rfl⟩ := narrow_error h
        exact ⟨reason, rfl⟩
      · exact absurd h (by simp [pure, Except.pure])

/-- A constraint of a file is added, and named if it has a label. -/
structure Enters (m n : LoadedModel α) (entry : ConstraintEntry α) (index : Nat)
    (k : ConstraintId) (coefficients : List α) (ids : List VariableId) (added : Spec α) : Prop where
  resolved : m.resolve index entry.terms = .ok (coefficients, ids)
  addition : m.spec.addConstraint coefficients ids entry.relation entry.right entry.penaltyAbove
    entry.penaltyBelow = .ok (k, added)
  named : entry.label = none ∧ n.spec = added ∨
    ∃ label, entry.label = some label ∧ added.setConstraintLabel k label = .ok n.spec
  names : n.names = m.names

theorem exists_enters {entry : ConstraintEntry α} {index : Nat} {k : ConstraintId}
    (h : m.impose entry index = .ok (k, n)) :
    ∃ coefficients ids added, m.Enters n entry index k coefficients ids added := by
  obtain ⟨⟨coefficients, ids⟩, hresolve, h⟩ := bind_ok h
  obtain ⟨⟨k', added⟩, hadd, h⟩ := bind_ok h
  have hadded := mapError_ok hadd
  cases hlabel : entry.label with
  | none =>
    rw [hlabel] at h
    obtain ⟨rfl, rfl⟩ := Prod.mk.inj (Except.ok.inj h)
    exact ⟨coefficients, ids, added, hresolve, hadded, .inl ⟨hlabel, rfl⟩, rfl⟩
  | some label =>
    rw [hlabel] at h
    obtain ⟨t, hset, h⟩ := bind_ok h
    obtain ⟨rfl, rfl⟩ := Prod.mk.inj (Except.ok.inj h)
    exact ⟨coefficients, ids, added, hresolve, hadded,
      .inr ⟨label, hlabel, mapError_ok hset⟩, rfl⟩

/-- A constraint is rejected for a name that is not declared, or by the specification. -/
theorem impose_error {entry : ConstraintEntry α} {index : Nat} {e : ModelError α}
    (h : m.impose entry index = .error e) :
    (∃ term ∈ entry.terms, m.lookup? term.name = none ∧ e = .unknownVariable index term.name) ∨
      ∃ reason, e = .rejected reason := by
  obtain h | ⟨⟨coefficients, ids⟩, -, h⟩ := bind_error h
  · exact .inl (resolve_error h)
  · right
    obtain h | ⟨⟨k, added⟩, -, h⟩ := bind_error h
    · obtain ⟨reason, -, rfl⟩ := mapError_error h
      exact ⟨reason, rfl⟩
    · cases hlabel : entry.label with
      | none =>
        rw [hlabel] at h
        exact absurd h (by simp [pure, Except.pure])
      | some label =>
        rw [hlabel] at h
        obtain h | ⟨t, -, h⟩ := bind_error h
        · obtain ⟨reason, -, rfl⟩ := mapError_error h
          exact ⟨reason, rfl⟩
        · exact absurd h (by simp [pure, Except.pure])

/-! ### Names -/

/-- Declarations append their names. -/
theorem exists_names_append {entries : List (VariableEntry α)}
    (h : entries.foldlM declare m = .ok n) :
    ∃ rest, n.names = m.names ++ rest ∧ rest.map Prod.fst = entries.map VariableEntry.name := by
  induction entries generalizing m with
  | nil =>
    obtain rfl := Except.ok.inj h
    exact ⟨[], (List.append_nil _).symm, rfl⟩
  | cons entry entries ih =>
    rw [List.foldlM_cons] at h
    obtain ⟨m', hm', h⟩ := bind_ok h
    obtain ⟨id, added, narrowed, hdeclares⟩ := exists_declares hm'
    obtain ⟨rest, hnames, hrest⟩ := ih h
    refine ⟨(entry.name, id) :: rest, ?_, ?_⟩
    · rw [hnames, hdeclares.names, List.append_assoc]
      rfl
    · rw [List.map_cons, List.map_cons, hrest]

theorem names_foldlM_declare {entries : List (VariableEntry α)}
    (h : entries.foldlM declare m = .ok n) :
    n.names.map Prod.fst = m.names.map Prod.fst ++ entries.map VariableEntry.name := by
  obtain ⟨rest, hnames, hrest⟩ := exists_names_append h
  rw [hnames, List.map_append, hrest]

theorem names_impose {entry : ConstraintEntry α} {index : Nat} {k : ConstraintId}
    (h : m.impose entry index = .ok (k, n)) : n.names = m.names := by
  obtain ⟨coefficients, ids, added, henters⟩ := exists_enters h
  exact henters.names

theorem names_imposeAll {entries : List (ConstraintEntry α)} {index : Nat}
    (h : m.imposeAll entries index = .ok n) : n.names = m.names := by
  induction entries generalizing m index with
  | nil =>
    obtain rfl := Except.ok.inj h
    rfl
  | cons entry entries ih =>
    obtain ⟨⟨k, m'⟩, hm', h⟩ := bind_ok h
    rw [ih h, names_impose hm']

/-! ### Cells -/

omit [Scalar α] in
theorem evolves_narrow {s t : Spec α} {limit : Option α}
    {set : Spec α → α → Except (SpecError α) (Spec α)} (h : narrow s limit set = .ok t)
    (hset : ∀ x, set s x = .ok t → s.Evolves t 0 2) : s.Evolves t 0 2 := by
  obtain ⟨-, rfl⟩ | ⟨x, -, hx⟩ := narrow_ok h
  · exact (Spec.Evolves.refl t).mono le_rfl (Nat.zero_le 2)
  · exact hset x hx

theorem evolves_setRange {s t : Spec α} {id : VariableId} {lower upper : α}
    (h : s.setRange id lower upper = .ok t) : s.Evolves t 0 2 := by
  obtain ⟨-, -, rfl⟩ := Spec.setRange_ok h
  exact s.evolves_applyRange id lower upper

namespace Declares

variable {entry : VariableEntry α} {id : VariableId} {added narrowed : Spec α}

theorem evolves_added (h : m.Declares n entry id added narrowed) : m.spec.Evolves added 1 0 := by
  obtain rfl : (m.spec.addVariable (some entry.name)).2 = added := congrArg Prod.snd h.addition
  exact m.spec.evolves_insertVariable _

theorem evolves_narrowed (h : m.Declares n entry id added narrowed) :
    added.Evolves narrowed 0 2 := by
  refine evolves_narrow h.lowerEnd fun x hx => ?_
  obtain ⟨v, -, hset⟩ := Spec.setLower_ok hx
  exact evolves_setRange hset

theorem evolves_spec (h : m.Declares n entry id added narrowed) :
    narrowed.Evolves n.spec 0 2 := by
  refine evolves_narrow h.upperEnd fun x hx => ?_
  obtain ⟨v, -, hset⟩ := Spec.setUpper_ok hx
  exact evolves_setRange hset

end Declares

theorem evolves_declare {entry : VariableEntry α} (h : m.declare entry = .ok n) :
    m.spec.Evolves n.spec 1 4 := by
  obtain ⟨id, added, narrowed, hdeclares⟩ := exists_declares h
  exact (hdeclares.evolves_added.trans hdeclares.evolves_narrowed).trans hdeclares.evolves_spec

namespace Enters

variable {entry : ConstraintEntry α} {index : Nat} {k : ConstraintId} {coefficients : List α}
  {ids : List VariableId} {added : Spec α}

theorem evolves_added (h : m.Enters n entry index k coefficients ids added) :
    m.spec.Evolves added 1 4 := by
  obtain ⟨-, hadd⟩ := Spec.addConstraint_eq_ok_iff.1 h.addition
  obtain rfl : _ = added := congrArg Prod.snd hadd
  exact m.spec.evolves_register _

theorem evolves_spec (h : m.Enters n entry index k coefficients ids added) :
    added.Evolves n.spec 0 0 := by
  obtain ⟨-, hspec⟩ | ⟨label, -, hset⟩ := h.named
  · rw [hspec]
    exact .refl added
  · rw [Spec.setConstraintLabel_ok hset]
    exact added.evolves_modifyConstraint k _

end Enters

theorem evolves_impose {entry : ConstraintEntry α} {index : Nat} {k : ConstraintId}
    (h : m.impose entry index = .ok (k, n)) : m.spec.Evolves n.spec 1 4 := by
  obtain ⟨coefficients, ids, added, henters⟩ := exists_enters h
  exact henters.evolves_added.trans henters.evolves_spec

theorem evolves_foldlM_declare {entries : List (VariableEntry α)}
    (h : entries.foldlM declare m = .ok n) :
    m.spec.Evolves n.spec entries.length (entries.length * 4) := by
  induction entries generalizing m with
  | nil =>
    obtain rfl := Except.ok.inj h
    exact .refl _
  | cons entry entries ih =>
    rw [List.foldlM_cons] at h
    obtain ⟨m', hm', h⟩ := bind_ok h
    refine ((evolves_declare hm').trans (ih h)).mono ?_ ?_
    · rw [List.length_cons, Nat.add_comm]
    · rw [List.length_cons, Nat.add_one_mul, Nat.add_comm]

theorem evolves_imposeAll {entries : List (ConstraintEntry α)} {index : Nat}
    (h : m.imposeAll entries index = .ok n) :
    m.spec.Evolves n.spec entries.length (entries.length * 4) := by
  induction entries generalizing m index with
  | nil =>
    obtain rfl := Except.ok.inj h
    exact .refl _
  | cons entry entries ih =>
    obtain ⟨⟨k, m'⟩, hm', h⟩ := bind_ok h
    refine ((evolves_impose hm').trans (ih h)).mono ?_ ?_
    · rw [List.length_cons, Nat.add_comm]
    · rw [List.length_cons, Nat.add_one_mul, Nat.add_comm]

end LoadedModel

/-- **Handles do not run out soon**: a file of half a billion entries does not use them up. -/
theorem ModelFile.addressable_of_build {file : ModelFile α} {options : Options α}
    {m : LoadedModel α} (h : file.build options = .ok m)
    (hsize : (file.variableEntries.length + file.constraintEntries.length) * 4 ≤ UInt32.size) :
    m.spec.Addressable := by
  obtain ⟨declared, hdeclared, himposed⟩ := bind_ok h
  have hevolves := (LoadedModel.evolves_foldlM_declare hdeclared).trans
    (LoadedModel.evolves_imposeAll himposed)
  have hv := hevolves.le_variables
  have hc := hevolves.le_constraints
  simp only [List.size_toArray, List.length_nil, Nat.zero_add] at hv hc
  exact ⟨hv.trans (by omega), hc.trans (by omega)⟩

/-! ### What has been taken in -/

namespace Spec.Lists

variable [RangeScalar α] {s t : Spec α} {vs : List (VariableId × PlainVariable α)}
  {cs : List (ConstraintId × PlainConstraint α)} {id : VariableId} {x : PlainVariable α}
  {limit : Option α}

/-- The lower end of the last variable is set, if one is given. -/
theorem narrowLower (h : s.Lists (vs ++ [(id, x)]) cs) (hx : x.lower = Variable.defaultLower)
    (hnarrow : LoadedModel.narrow s limit (·.setLower id ·) = .ok t) (hroom : t.Addressable) :
    t.Lists (vs ++ [(id, { x with lower := limit.getD Variable.defaultLower })]) cs := by
  obtain ⟨rfl, rfl⟩ | ⟨lower, rfl, hset⟩ := LoadedModel.narrow_ok hnarrow
  · rw [Option.getD_none, ← hx]
    exact h
  · obtain ⟨v, hv, hset⟩ := setLower_ok hset
    obtain ⟨w, hw, -, rfl⟩ := plainVariable?_eq_some.1 h.variableEntries.table_eq_some
    obtain rfl := Option.some.inj (hv.symm.trans hw)
    refine h.setRange hset hroom (fun hnarrowed => ?_) fun hupper => hupper
    rw [hx] at hnarrowed
    exact absurd hnarrowed RangeScalar.defaultLower_not_lt

/-- The upper end of the last variable is set, if one is given. -/
theorem narrowUpper (h : s.Lists (vs ++ [(id, x)]) cs) (hx : x.upper = Variable.defaultUpper)
    (hnarrow : LoadedModel.narrow s limit (·.setUpper id ·) = .ok t) (hroom : t.Addressable) :
    t.Lists (vs ++ [(id, { x with upper := limit.getD Variable.defaultUpper })]) cs := by
  obtain ⟨rfl, rfl⟩ | ⟨upper, rfl, hset⟩ := LoadedModel.narrow_ok hnarrow
  · rw [Option.getD_none, ← hx]
    exact h
  · obtain ⟨v, hv, hset⟩ := setUpper_ok hset
    obtain ⟨w, hw, -, rfl⟩ := plainVariable?_eq_some.1 h.variableEntries.table_eq_some
    obtain rfl := Option.some.inj (hv.symm.trans hw)
    refine h.setRange hset hroom (fun hlower => hlower) fun hnarrowed => ?_
    rw [hx] at hnarrowed
    exact absurd hnarrowed RangeScalar.defaultUpper_not_lt

end Spec.Lists

namespace LoadedModel

variable [RangeScalar α] {m n : LoadedModel α} {entries : List (VariableEntry α)}
  {cs : List (ConstraintId × PlainConstraint α)}

/-- The variables of some entries and some constraints have been taken in. -/
structure Holds (m : LoadedModel α) (entries : List (VariableEntry α))
    (cs : List (ConstraintId × PlainConstraint α)) : Prop where
  names : m.names.map Prod.fst = entries.map VariableEntry.name
  nodup : (m.names.map Prod.fst).Nodup
  lists : m.spec.Lists ((m.names.map Prod.snd).zip (entries.map VariableEntry.plain)) cs

omit [RangeScalar α] in
theorem holds_initial (options : Options α) : (⟨{ options }, []⟩ : LoadedModel α).Holds [] [] where
  names := rfl
  nodup := List.nodup_nil
  lists := Spec.lists_initial options

omit [RangeScalar α] in
theorem Holds.length_eq (h : m.Holds entries cs) : m.names.length = entries.length := by
  simpa using congrArg List.length h.names

section Declaration

variable {entry : VariableEntry α} {id : VariableId} {added : Spec α}

/-- A variable has been added. -/
theorem Holds.lists_added (h : m.Holds entries cs)
    (haddition : m.spec.addVariable (some entry.name) = (id, added)) (hroom : added.Addressable) :
    added.Lists ((m.names.map Prod.snd).zip (entries.map VariableEntry.plain) ++
      [(id, ⟨Variable.defaultLower, Variable.defaultUpper, some entry.name⟩)]) cs := by
  have hlists := h.lists.addVariable (some entry.name)
  rw [haddition] at hlists
  exact hlists hroom

/-- A variable is declared. -/
theorem Holds.declare (h : m.Holds entries cs) (hdeclare : m.declare entry = .ok n)
    (hroom : n.spec.Addressable) : n.Holds (entries ++ [entry]) cs := by
  obtain ⟨id, added, narrowed, hdeclares⟩ := exists_declares hdeclare
  have hroom₂ := hdeclares.evolves_spec.addressable hroom
  have hroom₁ := hdeclares.evolves_narrowed.addressable hroom₂
  have hlists := ((h.lists_added hdeclares.addition hroom₁).narrowLower rfl hdeclares.lowerEnd
    hroom₂).narrowUpper rfl hdeclares.upperEnd hroom
  refine ⟨?_, ?_, ?_⟩
  · rw [hdeclares.names, List.map_append, List.map_append, h.names]
    rfl
  · rw [hdeclares.names, List.map_append]
    have hnodup := h.nodup.concat (lookup?_eq_none_iff.1 hdeclares.isNew)
    rwa [List.concat_eq_append] at hnodup
  · have hlength : (m.names.map Prod.snd).length = (entries.map VariableEntry.plain).length := by
      rw [List.length_map, List.length_map, h.length_eq]
    rw [hdeclares.names, List.map_append, List.map_append, List.zip_append hlength]
    exact hlists

end Declaration

/-- A constraint is imposed. -/
theorem Holds.impose (h : m.Holds entries cs) {entry : ConstraintEntry α} {index : Nat}
    {k : ConstraintId} (himpose : m.impose entry index = .ok (k, n)) (hroom : n.spec.Addressable) :
    ∃ c, m.constraint? entry = some c ∧ n.Holds entries (cs ++ [(k, c)]) := by
  obtain ⟨coefficients, ids, added, henters⟩ := exists_enters himpose
  have hadded := h.lists.addConstraint henters.addition (henters.evolves_spec.addressable hroom)
  refine ⟨⟨mergeSummands (List.zipWith Summand.mk coefficients ids), entry.relation, entry.right,
    entry.penaltyAbove, entry.penaltyBelow, entry.label⟩, ?_, ?_⟩
  · unfold constraint?
    rw [resolve_ok henters.resolved]
    rfl
  · refine ⟨?_, ?_, ?_⟩
    · rw [henters.names, h.names]
    · rw [henters.names]
      exact h.nodup
    · rw [henters.names]
      obtain ⟨hlabel, hspec⟩ | ⟨label, hlabel, hset⟩ := henters.named
      · rw [hlabel, hspec]
        exact hadded
      · rw [hlabel]
        exact hadded.nameConstraint hset

/-- All constraints are imposed. -/
theorem Holds.imposeAll (h : m.Holds entries cs) {imposed : List (ConstraintEntry α)} {index : Nat}
    (himpose : m.imposeAll imposed index = .ok n) (hroom : n.spec.Addressable) :
    ∃ cs', n.Holds entries (cs ++ cs') ∧
      List.Forall₂ (fun entry p => m.constraint? entry = some p.2) imposed cs' := by
  induction imposed generalizing m cs index with
  | nil =>
    obtain rfl := Except.ok.inj himpose
    refine ⟨[], ?_, .nil⟩
    rw [List.append_nil]
    exact h
  | cons entry imposed ih =>
    obtain ⟨⟨k, m'⟩, hm', himpose⟩ := bind_ok himpose
    obtain ⟨c, hc, hheld⟩ := h.impose hm' ((evolves_imposeAll himpose).addressable hroom)
    obtain ⟨cs', hall, hdescribed⟩ := ih hheld himpose
    rw [constraint?_congr (names_impose hm')] at hdescribed
    refine ⟨(k, c) :: cs', ?_, .cons hc hdescribed⟩
    rw [List.append_assoc] at hall
    exact hall

end LoadedModel

/-- Variables are declared: the induction takes the last entry apart, so that handles enough at the
end are enough all the way. -/
theorem LoadedModel.holds_of_foldlM_declare [RangeScalar α] {options : Options α}
    {entries : List (VariableEntry α)} {m : LoadedModel α}
    (h : entries.foldlM LoadedModel.declare ⟨{ options }, []⟩ = .ok m)
    (hroom : m.spec.Addressable) : m.Holds entries [] := by
  induction entries using List.reverseRecOn generalizing m with
  | nil =>
    obtain rfl := Except.ok.inj h
    exact LoadedModel.holds_initial options
  | append_singleton entries entry ih =>
    rw [List.foldlM_append] at h
    obtain ⟨m', hm', h⟩ := bind_ok h
    obtain ⟨last, hlast, h⟩ := bind_ok h
    obtain rfl := Except.ok.inj h
    have hroom' := (LoadedModel.evolves_declare hlast).addressable hroom
    exact (ih hm' hroom').declare hlast hroom

/-! ### Rejections -/

namespace LoadedModel

variable {m n : LoadedModel α}

/-- Constraints are rejected for a name that is not declared, or by the specification. -/
theorem imposeAll_error {entries : List (ConstraintEntry α)} {index : Nat} {e : ModelError α}
    (h : m.imposeAll entries index = .error e) :
    (∃ i entry, entries[i]? = some entry ∧ ∃ term ∈ entry.terms, m.lookup? term.name = none ∧
      e = .unknownVariable (index + i) term.name) ∨ ∃ reason, e = .rejected reason := by
  induction entries generalizing m index with
  | nil => exact absurd h (by simp [imposeAll])
  | cons entry entries ih =>
    obtain h | ⟨⟨k, m'⟩, hm', h⟩ := bind_error h
    · obtain ⟨term, hterm, hlookup, he⟩ | hrejected := impose_error h
      · exact .inl ⟨0, entry, rfl, term, hterm, hlookup, he⟩
      · exact .inr hrejected
    · obtain ⟨i, found, hfound, term, hterm, hlookup, he⟩ | hrejected := ih h
      · rw [lookup?_eq_none_iff, names_impose hm', ← lookup?_eq_none_iff] at hlookup
        refine .inl ⟨i + 1, found, hfound, term, hterm, hlookup, ?_⟩
        rw [he, Nat.add_right_comm, Nat.add_assoc]
      · exact .inr hrejected

end LoadedModel

namespace ModelFile

variable {file : ModelFile α} {options : Options α}

/-- Declarations are rejected for a name that was declared before, or by the specification. -/
theorem declareAll_error {e : ModelError α} (h : file.declareAll options = .error e) :
    (∃ name, e = .duplicateVariable name ∧
      2 ≤ (file.variableEntries.map VariableEntry.name).count name) ∨
      ∃ reason, e = .rejected reason := by
  obtain ⟨before, entry, after, m, hentries, hbefore, hentry⟩ := foldlM_error h
  obtain ⟨rfl, hname⟩ | hrejected := LoadedModel.declare_error hentry
  · refine .inl ⟨entry.name, rfl, ?_⟩
    rw [LoadedModel.names_foldlM_declare hbefore, List.map_nil, List.nil_append] at hname
    have hfirst := List.count_pos_iff.2 hname
    rw [hentries, List.map_append, List.map_cons, List.count_append, List.count_cons_self]
    omega
  · exact .inr hrejected

theorem build_error_unknown {index : Nat} {name : String}
    (h : file.build options = .error (.unknownVariable index name)) :
    (∀ entry ∈ file.variableEntries, entry.name ≠ name) ∧
      ∃ entry, file.constraintEntries[index]? = some entry ∧ ∃ term ∈ entry.terms,
        term.name = name := by
  obtain h | ⟨m, hm, h⟩ := bind_error h
  · obtain ⟨name', he, -⟩ | ⟨reason, he⟩ := declareAll_error h
    · exact absurd he (by simp)
    · exact absurd he (by simp)
  · obtain ⟨i, entry, hentry, term, hterm, hlookup, he⟩ | ⟨reason, he⟩ :=
      LoadedModel.imposeAll_error h
    · obtain ⟨rfl, rfl⟩ := ModelError.unknownVariable.inj he
      rw [LoadedModel.lookup?_eq_none_iff, LoadedModel.names_foldlM_declare hm, List.map_nil,
        List.nil_append] at hlookup
      rw [Nat.zero_add]
      exact ⟨fun entry hentry heq => hlookup (List.mem_map.2 ⟨entry, hentry, heq⟩), entry, hentry,
        term, hterm, rfl⟩
    · exact absurd he (by simp)

theorem build_error_duplicate {name : String}
    (h : file.build options = .error (.duplicateVariable name)) :
    2 ≤ (file.variableEntries.map VariableEntry.name).count name := by
  obtain h | ⟨m, -, h⟩ := bind_error h
  · obtain ⟨name', he, hcount⟩ | ⟨reason, he⟩ := declareAll_error h
    · obtain rfl := ModelError.duplicateVariable.inj he
      exact hcount
    · exact absurd he (by simp)
  · obtain ⟨i, entry, -, term, -, -, he⟩ | ⟨reason, he⟩ := LoadedModel.imposeAll_error h
    · exact absurd he (by simp)
    · exact absurd he (by simp)

end ModelFile

/-! ### What has been loaded -/

/-- The slack at the end of a left side, if there is one. -/
def Constraint.slackTerms (c : Constraint α) : List (Summand α) :=
  c.elastic.toList.map fun e => ⟨e.coefficient, e.slack⟩

/-- A left side is what the caller gave, and the slack. -/
theorem Spec.left_eq_ownTerms_append {s : Spec α} (h : s.registry.Owned none) {k : ConstraintId}
    {c : Constraint α} (hc : s.getConstraint? k = some c) :
    c.left = c.ownTerms ++ c.slackTerms := by
  unfold Constraint.slackTerms
  cases helastic : c.elastic with
  | none =>
    rw [Constraint.ownTerms_of_rigid helastic]
    exact (List.append_nil c.left).symm
  | some e => exact (h.owns k c e hc helastic).left

/-- The variable has the name and the range of the entry; an end that is not given is that of the
default range. -/
structure VariableEntry.Fits (entry : VariableEntry α) (v : Variable α) : Prop where
  label : v.label = some entry.name
  lower : v.lower = entry.lower.getD Variable.defaultLower
  upper : v.upper = entry.upper.getD Variable.defaultUpper

namespace LoadedModel

/-- The constraint is that of the entry.  Its left side is the merged one over the variables of the
names, with a slack behind if it is a soft inequality, and only then. -/
structure Fits (m : LoadedModel α) (entry : ConstraintEntry α) (c : Constraint α) : Prop where
  left : ∃ terms merged, m.summands? entry.terms = some terms ∧ MergerOf terms merged ∧
    c.left = merged ++ c.slackTerms
  relation : c.relation = entry.relation
  right : c.right = entry.right
  penaltyAbove : c.penaltyAbove = entry.penaltyAbove
  penaltyBelow : c.penaltyBelow = entry.penaltyBelow
  label : c.label = entry.label
  elastic_iff : c.elastic.isSome = true ↔ c.isSoftInequality = true
  slack : ∀ e, c.elastic = some e → c.relation.slackCoefficient? = some e.coefficient ∧
    ∃ v, m.spec.getVariable? e.slack = some v ∧ v.isSlack = true

/-- The names and the specification are those of a file. -/
structure Represents (m : LoadedModel α) (file : ModelFile α) : Prop where
  /-- The declared names, in the order of their declarations. -/
  names : m.names.map Prod.fst = file.variableEntries.map VariableEntry.name
  /-- No two names have one variable. -/
  nodup_ids : (m.names.map Prod.snd).Nodup
  /-- Names are looked up. -/
  lookup?_iff : ∀ name id, m.lookup? name = some id ↔ (name, id) ∈ m.names
  /-- The variable of a name is live, is no slack, and is as declared. -/
  declared : List.Forall₂ (fun entry p => ∃ v, m.spec.getVariable? p.2 = some v ∧
    v.isSlack = false ∧ entry.Fits v) file.variableEntries m.names
  /-- The caller has no other variables. -/
  no_others : ∀ id v, m.spec.getVariable? id = some v → v.isSlack = false →
    id ∈ m.names.map Prod.snd
  /-- The constraints are listed by handle. -/
  pairwise : m.spec.constraintList.Pairwise fun a b => a.1.slot.precedes b.1.slot = true
  /-- The constraints of the caller are those of the file, in order. -/
  imposed : List.Forall₂ (fun entry p => m.Fits entry p.2) file.constraintEntries
    (m.spec.constraintList.filter fun p => p.2.role == .user)

namespace Holds

variable {m : LoadedModel α} {entries : List (VariableEntry α)}
  {cs : List (ConstraintId × PlainConstraint α)}

/-- The variables of the caller are those of the names. -/
theorem plainVariable?_eq_some_iff (h : m.Holds entries cs) {id : VariableId}
    {x : PlainVariable α} : m.spec.plainVariable? id = some x ↔
      (id, x) ∈ (m.names.map Prod.snd).zip (entries.map VariableEntry.plain) :=
  (h.lists.variableEntries.mem_iff id x).symm

theorem nodup_ids (h : m.Holds entries cs) : (m.names.map Prod.snd).Nodup := by
  have hkeys := h.lists.variableEntries.nodup_keys
  rwa [List.map_fst_zip (by simp [h.length_eq])] at hkeys

theorem declared (h : m.Holds entries cs) :
    List.Forall₂ (fun entry p => ∃ v, m.spec.getVariable? p.2 = some v ∧ v.isSlack = false ∧
      VariableEntry.Fits entry v) entries m.names := by
  refine List.forall₂_iff_zip.2 ⟨h.length_eq.symm, fun {entry p} hmem => ?_⟩
  have hpair : (p.2, entry.plain)
      ∈ (m.names.map Prod.snd).zip (entries.map VariableEntry.plain) := by
    rw [← List.zip_swap, List.zip_map, List.map_map]
    exact List.mem_map.2 ⟨(entry, p), hmem, rfl⟩
  obtain ⟨v, hv, hslack, hends⟩ := Spec.plainVariable?_eq_some.1
    (h.plainVariable?_eq_some_iff.2 hpair)
  obtain ⟨hlower, hupper, hlabel⟩ := PlainVariable.mk.inj hends
  exact ⟨v, hv, hslack, hlabel.symm, hlower.symm, hupper.symm⟩

theorem mem_ids (h : m.Holds entries cs) {id : VariableId} {v : Variable α}
    (hv : m.spec.getVariable? id = some v) (hslack : v.isSlack = false) :
    id ∈ m.names.map Prod.snd :=
  (List.of_mem_zip (h.plainVariable?_eq_some_iff.1
    (Spec.plainVariable?_eq_some.2 ⟨v, hv, hslack, rfl⟩))).1

/-- A constraint of the caller fits an entry that describes it. -/
theorem fits (h : m.Holds entries cs) [RangeScalar α] {entry : ConstraintEntry α}
    {k : ConstraintId} {c : Constraint α} (hc : m.spec.getConstraint? k = some c)
    (hentry : m.constraint? entry = some c.plain) : m.Fits entry c := by
  obtain ⟨terms, hterms, hplain⟩ := Option.map_eq_some_iff.1 hentry
  obtain ⟨hleft, hrelation, hright, habove, hbelow, hlabel⟩ := PlainConstraint.mk.inj hplain
  have howned := h.lists.owned
  refine ⟨⟨terms, mergeSummands terms, hterms, mergerOf_mergeSummands terms, ?_⟩, hrelation.symm,
    hright.symm, habove.symm, hbelow.symm, hlabel.symm, Spec.elastic_isSome_iff howned hc,
    fun e he => ?_⟩
  · rw [hleft]
    exact Spec.left_eq_ownTerms_append howned hc
  · have howns := howned.owns k c e hc he
    obtain ⟨x, hx, hslack, -, -⟩ := howns.slack
    obtain ⟨v, hv, rfl⟩ := Spec.getVariable?_of_extent? hx
    exact ⟨howns.coefficient, v, hv, hslack⟩

theorem imposed (h : m.Holds entries cs) [RangeScalar α] {imposed : List (ConstraintEntry α)}
    (hcs : List.Forall₂ (fun entry p => m.constraint? entry = some p.2) imposed cs) :
    List.Forall₂ (fun entry p => m.Fits entry p.2) imposed
      (m.spec.constraintList.filter fun p => p.2.role == .user) := by
  rw [← h.lists.constraintList_eq, List.forall₂_map_right_iff] at hcs
  refine List.forall₂_iff_zip.2 ⟨hcs.length_eq, fun {entry p} hmem => ?_⟩
  have hlive := (List.mem_filter.1 (List.of_mem_zip hmem).2).1
  exact h.fits ((Spec.mem_constraintList h.lists.room).1 hlive) (List.forall₂_zip hcs hmem)

end Holds

end LoadedModel

/-- What a file lists is taken in. -/
theorem ModelFile.holds_of_build [RangeScalar α] {file : ModelFile α} {options : Options α}
    {m : LoadedModel α} (h : file.build options = .ok m) (hroom : m.spec.Addressable) :
    ∃ cs, m.Holds file.variableEntries cs ∧
      List.Forall₂ (fun entry p => m.constraint? entry = some p.2) file.constraintEntries cs := by
  obtain ⟨declared, hdeclared, himposed⟩ := bind_ok h
  have hroom' := (LoadedModel.evolves_imposeAll himposed).addressable hroom
  rw [LoadedModel.constraint?_congr (LoadedModel.names_imposeAll himposed)]
  exact (LoadedModel.holds_of_foldlM_declare hdeclared hroom').imposeAll himposed hroom

/-- **A file is loaded faithfully.**  If it is accepted, the names are those declared, each with a
variable of its own, and the caller's variables and constraints are those that the file lists, in
the order of the file.  If it is rejected for an unknown name, a constraint at the place reported
mentions a name that is not declared; if it is rejected for a name that is not new, the name is
declared twice. -/
theorem ModelFile.build_faithful [RangeScalar α] (file : ModelFile α) (options : Options α) :
    (∀ m, file.build options = .ok m → m.spec.Addressable → m.Represents file) ∧
    (∀ index name, file.build options = .error (.unknownVariable index name) →
      (∀ entry ∈ file.variableEntries, entry.name ≠ name) ∧
      ∃ entry, file.constraintEntries[index]? = some entry ∧ ∃ term ∈ entry.terms,
        term.name = name) ∧
    ∀ name, file.build options = .error (.duplicateVariable name) →
      2 ≤ (file.variableEntries.map VariableEntry.name).count name := by
  refine ⟨fun m hm hroom => ?_, fun index name => build_error_unknown,
    fun name => build_error_duplicate⟩
  obtain ⟨cs, hheld, hcs⟩ := holds_of_build hm hroom
  exact ⟨hheld.names, hheld.nodup_ids, fun name id => LoadedModel.lookup?_eq_some_iff hheld.nodup,
    hheld.declared, fun id v hv hslack => hheld.mem_ids hv hslack,
    Spec.constraintList_pairwise hheld.lists.room, hheld.imposed hcs⟩

/-- A pane with a narrow range, a split, and a wish that mentions the pane twice. -/
def ModelFile.paned : ModelFile Float where
  variableEntries := [⟨"pane", some 10.0, some 500.0⟩, ⟨"split", none, none⟩]
  constraintEntries := [⟨some "gap", [⟨1.0, "pane"⟩, ⟨-1.0, "split"⟩, ⟨2.0, "pane"⟩], .le, 5.0, 3.0,
    0.0⟩]

/-- The same file without the split. -/
def ModelFile.unsplit : ModelFile Float :=
  { paned with variableEntries := [⟨"pane", some 10.0, some 500.0⟩] }

/-- The same file with all variables declared twice. -/
def ModelFile.doubled : ModelFile Float :=
  { paned with variableEntries := paned.variableEntries ++ paned.variableEntries }

/-- The file is loaded; without the split its wish mentions an unknown name, and declared twice the
pane is not new. -/
theorem ModelFile.build_faithful_paned :
    (∃ m, paned.build .default = .ok m ∧ m.Represents paned) ∧
    (unsplit.build .default = .error (.unknownVariable 0 "split") ∧
      ∃ entry, unsplit.constraintEntries[0]? = some entry ∧ ∃ term ∈ entry.terms,
        term.name = "split") ∧
    (doubled.build .default = .error (.duplicateVariable "pane") ∧
      2 ≤ (doubled.variableEntries.map VariableEntry.name).count "pane") := by
  refine ⟨?_, ⟨rfl, ?_⟩, rfl, ?_⟩
  · have haccepted : (paned.build .default).isOk = true := by decide
    cases hm : paned.build .default with
    | error e =>
      rw [hm] at haccepted
      exact absurd haccepted (by simp [Except.isOk, Except.toBool])
    | ok m =>
      have hroom := addressable_of_build hm (by decide)
      exact ⟨m, rfl, (build_faithful paned .default).1 m hm hroom⟩
  · exact ((build_faithful unsplit .default).2.1 0 "split" rfl).2
  · exact (build_faithful doubled .default).2.2 "pane" rfl

end ElasticLayout
