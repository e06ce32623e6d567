import ElasticLayout.Proofs.ElasticOwnership

/-!
# Size queries leave everything but the values

A standing is all that a specification knows about a variable, but for its value.  A size query
moves reference counts up and down, and writes values; in the end every constraint and every
standing is what it was.

* `Standing`, `Spec.standing?` -- the standings by handle;
* `Standing.retain`, `Standing.release` -- reference counts, as changes of a standing;
* `Spec.standing?_retain` ... `Spec.standing?_solve` -- what the changes do to the standings;
* `Spec.SameButValues`, `Spec.sameButValues_sizeQuery` -- what a size query leaves alone;
* `Spec.Reachable.query_restores` -- the main result.
-/

namespace ElasticLayout

variable {α : Type}

/-! ### Standings -/

/-- What is known about a variable, but for its value. -/
structure Standing (α : Type) extends Extent α where
  /-- A name, if one was given. -/
  label : Option String
  /-- Number of live constraints whose left side mentions the variable. -/
  references : Nat

/-- The standing of a variable. -/
def Variable.standing (v : Variable α) : Standing α := ⟨v.extent, v.label, v.references⟩

/-- How often a left side mentions a variable. -/
def occurrences (left : List (Summand α)) (id : VariableId) : Nat :=
  left.countP (·.var == id)

@[simp] theorem occurrences_nil (id : VariableId) :
    occurrences ([] : List (Summand α)) id = 0 := rfl

theorem occurrences_cons (term : Summand α) (left : List (Summand α)) (id : VariableId) :
    occurrences (term :: left) id = occurrences left id + if id = term.var then 1 else 0 := by
  unfold occurrences
  rw [List.countP_cons]
  exact congrArg _ (if_congr (beq_iff_eq.trans eq_comm) rfl rfl)

namespace Standing

/-- References are counted. -/
def retain (n : Nat) (x : Standing α) : Standing α := { x with references := x.references + n }

/-- References are taken back. -/
def release (n : Nat) (x : Standing α) : Standing α := { x with references := x.references - n }

theorem iterate_retain (n : Nat) : (fun x : Standing α => x.retain 1)^[n] = (·.retain n) := by
  induction n with
  | zero => rfl
  | succ n ih =>
    rw [Function.iterate_succ', ih]
    rfl

theorem iterate_release (n : Nat) : (fun x : Standing α => x.release 1)^[n] = (·.release n) := by
  induction n with
  | zero => rfl
  | succ n ih =>
    rw [Function.iterate_succ', ih]
    rfl

/-- References that are counted twice over are taken back in the same order. -/
theorem release_retain (m n : Nat) (x : Standing α) :
    (((x.retain m).retain n).release m).release n = x := by
  show (⟨x.toExtent, x.label, x.references + m + n - m - n⟩ : Standing α) = x
  rw [show x.references + m + n - m - n = x.references by omega]

end Standing

namespace Spec

/-- The standing of a live variable. -/
def standing? (s : Spec α) (id : VariableId) : Option (Standing α) :=
  (s.getVariable? id).map Variable.standing

/-! ### What the changes do -/

theorem standing?_modifyVariable (s : Spec α) (id v : VariableId)
    (f : Variable α → Variable α) : (s.modifyVariable id f).standing? v
      = if v = id then (s.getVariable? id).map fun x => (f x).standing else s.standing? v := by
  unfold standing?
  rw [getVariable?_modifyVariable]
  split
  · rw [Option.map_map]
    rfl
  · rfl

/-- A change that keeps the standing of a variable is not seen. -/
theorem standing?_modifyVariable_of_standing (s : Spec α) (id : VariableId)
    {f : Variable α → Variable α} (h : ∀ v, (f v).standing = v.standing) :
    (s.modifyVariable id f).standing? = s.standing? := by
  funext v
  rw [standing?_modifyVariable]
  split
  · rename_i hv
    simp only [h]
    rw [hv]
    rfl
  · rfl

/-- The same change for each variable of a left side, one summand after the other. -/
theorem standing?_foldl {f : Variable α → Variable α} {g : Standing α → Standing α}
    (h : ∀ v, (f v).standing = g v.standing) (left : List (Summand α)) (s : Spec α)
    (id : VariableId) : (left.foldl (fun s term => s.modifyVariable term.var f) s).standing? id
      = (s.standing? id).map g^[occurrences left id] := by
  induction left generalizing s with
  | nil => exact Option.map_id'.symm
  | cons term left ih =>
    have hfirst : (s.modifyVariable term.var f).standing? id
        = (s.standing? id).map g^[if id = term.var then 1 else 0] := by
      rw [standing?_modifyVariable]
      split
      · rename_i hid
        simp only [h, hid]
        exact (Option.map_map ..).symm
      · exact Option.map_id'.symm
    rw [List.foldl_cons, ih, hfirst, Option.map_map, occurrences_cons, Function.iterate_add]

theorem standing?_retain (s : Spec α) (left : List (Summand α)) (id : VariableId) :
    (s.retain left).standing? id = (s.standing? id).map (·.retain (occurrences left id)) := by
  rw [← Standing.iterate_retain]
  exact standing?_foldl (fun _ => rfl) left s id

theorem standing?_release (s : Spec α) (left : List (Summand α)) (id : VariableId) :
    (s.release left).standing? id = (s.standing? id).map (·.release (occurrences left id)) := by
  rw [← Standing.iterate_release]
  exact standing?_foldl (fun _ => rfl) left s id

theorem standing?_place (s : Spec α) (c : Constraint α) (id : VariableId) :
    (s.place c).2.standing? id = (s.standing? id).map (·.retain (occurrences c.left id)) :=
  s.standing?_retain c.left id

theorem standing?_withdraw {s : Spec α} {k : ConstraintId} {c : Constraint α}
    (hc : s.registry.constraint? k = some c) (id : VariableId) :
    (s.withdraw k).standing? id = (s.standing? id).map (·.release (occurrences c.left id)) := by
  rw [withdraw_of_live hc]
  exact standing?_release _ c.left id

theorem standing?_assign (s : Spec α) (values : List (VariableId × α)) :
    (s.assign values).standing? = s.standing? := by
  unfold assign
  refine foldl_keeps standing? (fun s entry => ?_) values s
  exact s.standing?_modifyVariable_of_standing entry.1 fun _ => rfl

theorem variableStore_setSuspended (suspended : Bool) (s : Spec α) (k : ConstraintId) :
    (s.setSuspended suspended k).variableStore = s.variableStore := by
  rw [setSuspended_eq_foldl]
  refine foldl_keeps variableStore (fun _ _ => ?_) _ s
  rfl

theorem variableStore_foldl_setSuspended (suspended : Bool) (ks : List ConstraintId)
    (s : Spec α) : (ks.foldl (setSuspended suspended) s).variableStore = s.variableStore :=
  foldl_keeps variableStore (variableStore_setSuspended suspended) ks s

theorem standing?_congr {s t : Spec α} (h : s.variableStore = t.variableStore) :
    s.standing? = t.standing? := by
  unfold standing? getVariable?
  rw [h]

variable [Scalar α]

theorem standing?_solve (s : Spec α) : s.solve.standing? = s.standing? :=
  solve_keeps standing? standing?_assign (fun _ _ => rfl) s

/-! ### Options -/

omit [Scalar α] in
theorem options_retain (s : Spec α) (left : List (Summand α)) :
    (s.retain left).options = s.options := by
  unfold retain
  refine foldl_keeps Spec.options (fun _ _ => ?_) left s
  rfl

omit [Scalar α] in
theorem options_release (s : Spec α) (left : List (Summand α)) :
    (s.release left).options = s.options := by
  unfold release
  refine foldl_keeps Spec.options (fun _ _ => ?_) left s
  rfl

omit [Scalar α] in
theorem options_assign (s : Spec α) (values : List (VariableId × α)) :
    (s.assign values).options = s.options := by
  unfold assign
  refine foldl_keeps Spec.options (fun _ _ => ?_) values s
  rfl

omit [Scalar α] in
theorem options_place (s : Spec α) (c : Constraint α) : (s.place c).2.options = s.options :=
  s.options_retain c.left

omit [Scalar α] in
theorem options_withdraw (s : Spec α) (k : ConstraintId) : (s.withdraw k).options = s.options :=
  withdraw_keeps Spec.options (fun _ _ => rfl) options_release s k

omit [Scalar α] in
theorem options_setSuspended (suspended : Bool) (s : Spec α) (k : ConstraintId) :
    (s.setSuspended suspended k).options = s.options := by
  rw [setSuspended_eq_foldl]
  refine foldl_keeps Spec.options (fun _ _ => ?_) _ s
  rfl

theorem options_solve (s : Spec α) : s.solve.options = s.options :=
  solve_keeps options options_assign (fun _ _ => rfl) s

/-! ### Size queries -/

/-- Nothing differs but the values of variables, and the outcome of the last solve. -/
structure SameButValues (s t : Spec α) : Prop where
  /-- The constraints are the same, under the same handles. -/
  constraints : t.getConstraint? = s.getConstraint?
  /-- No constraint is suspended. -/
  resumed : ∀ k c, t.getConstraint? k = some c → c.isSuspended = false
  /-- The variables are the same but for their values, under the same handles. -/
  standings : t.standing? = s.standing?
  /-- The options are the same. -/
  options : t.options = s.options

variable {s t s₀ s₁ s₂ : Spec α} {width height : VariableId} {target : α} {k₁ k₂ : ConstraintId}

/-- **A query takes back the references that its pins brought.** -/
theorem QueryStages.standing? (h : s.QueryStages t width height target s₀ s₁ s₂ k₁ k₂) :
    t.standing? = s.standing? := by
  obtain ⟨hfirst, hsecond⟩ := h.pins_live
  have hone : s₁.standing? = _ := funext fun id =>
    (congrArg (fun p => p.2.standing? id) h.heightPin.symm).trans (s₀.standing?_place _ id)
  have htwo : s₂.standing? = _ := funext fun id =>
    (congrArg (fun p => p.2.standing? id) h.widthPin.symm).trans (s₁.standing?_place _ id)
  have hsuspended : s₀.standing? = s.standing? :=
    standing?_congr (by rw [h.suspended, variableStore_foldl_setSuspended])
  rw [h.restored, standing?_congr (variableStore_foldl_setSuspended false _ _)]
  funext id
  rw [standing?_withdraw hsecond, standing?_withdraw hfirst, standing?_solve, htwo, hone,
    hsuspended, Option.map_map, Option.map_map, Option.map_map]
  refine (congrArg (Option.map · _) (funext fun x => ?_)).trans Option.map_id'
  exact x.release_retain _ _

/-- No stage changes the options. -/
theorem QueryStages.options_stages (h : s.QueryStages t width height target s₀ s₁ s₂ k₁ k₂) :
    s₀.options = s.options ∧ s₁.options = s.options ∧ s₂.options = s.options := by
  have hsuspended : s₀.options = s.options := by
    rw [h.suspended, foldl_keeps Spec.options (options_setSuspended true)]
  have hfirst : s₁.options = s₀.options :=
    (congrArg (fun p => p.2.options) h.heightPin.symm).trans (s₀.options_place _)
  have hsecond : s₂.options = s₁.options :=
    (congrArg (fun p => p.2.options) h.widthPin.symm).trans (s₁.options_place _)
  exact ⟨hsuspended, hfirst.trans hsuspended, (hsecond.trans hfirst).trans hsuspended⟩

theorem QueryStages.options (h : s.QueryStages t width height target s₀ s₁ s₂ k₁ k₂) :
    t.options = s.options := by
  rw [h.restored, foldl_keeps Spec.options (options_setSuspended false), options_withdraw,
    options_withdraw, options_solve]
  exact h.options_stages.2.2

/-- A query whose handles are live is answered. -/
theorem exists_sizeQuery (s : Spec α) (hwidth : (s.getVariable? width).isSome = true)
    (hheight : (s.getVariable? height).isSome = true) (target : α) (unbounded : Size α) :
    ∃ size t, s.sizeQuery width height target unbounded = .ok (size, t) :=
  ⟨_, _, sizeQuery_eq_ok_iff.2 ⟨hwidth, hheight, rfl, rfl⟩⟩

variable [RangeScalar α]

omit [RangeScalar α] in
theorem sameButValues_sizeQuery (htidy : s.Tidy) (howned : s.registry.Owned none)
    {unbounded size : Size α} (h : s.sizeQuery width height target unbounded = .ok (size, t))
    (hroom : t.Addressable) : s.SameButValues t := by
  obtain ⟨s₀, s₁, s₂, k₁, k₂, hstages⟩ := exists_queryStages htidy h hroom
  have hregistry := registry_sizeQuery htidy howned.resumed h hroom
  have hconstraints : t.getConstraint? = s.getConstraint? := congrArg Registry.constraint? hregistry
  exact ⟨hconstraints, fun k c hk =>
    howned.resumed k c ((congrFun hconstraints k).symm.trans hk), hstages.standing?,
    hstages.options⟩

/-- **Size queries leave everything but the values.**  Asked for live variables, whatever the
options are, a query is answered; and as long as there are handles for its pins, every constraint,
every variable and the options are afterwards what they were, but for the values of variables. -/
theorem Reachable.query_restores (hs : s.Reachable)
    (hwidth : (s.getVariable? width).isSome = true)
    (hheight : (s.getVariable? height).isSome = true) :
    (∃ size t, s.minSize width height = .ok (size, t) ∧ (t.Addressable → s.SameButValues t)) ∧
    (∃ size t, s.maxSize width height = .ok (size, t) ∧ (t.Addressable → s.SameButValues t)) := by
  obtain ⟨size, t, h⟩ := s.exists_sizeQuery hwidth hheight 0 Size.zero
  obtain ⟨size', t', h'⟩ := s.exists_sizeQuery hwidth hheight s.options.largestSize Size.unbounded
  obtain ⟨htidy, howned⟩ := hs.tidy_owned
  exact ⟨⟨size, t, h, sameButValues_sizeQuery htidy howned h⟩,
    ⟨size', t', h', sameButValues_sizeQuery htidy howned h'⟩⟩

/-- Asked for a variable and the slack of a constraint on it, with options that are no numbers, a
query leaves everything but the values. -/
theorem query_restores_slack :
    let s : Spec Float := ({ options := ⟨10000, Scalar.nan, Scalar.nan⟩ } : Spec Float).run
      [.addVariable none, .addConstraint [1] [⟨⟨0, 0⟩⟩] .le 100 4 0]
    s.Reachable ∧ (∃ size t, s.minSize ⟨⟨0, 0⟩⟩ ⟨⟨1, 0⟩⟩ = .ok (size, t) ∧ s.SameButValues t) ∧
      (∃ size t, s.maxSize ⟨⟨0, 0⟩⟩ ⟨⟨1, 0⟩⟩ = .ok (size, t) ∧ s.SameButValues t) := by
  intro s
  have hs : s.Reachable := reachable_run _ (by decide)
  have hvariable : (s.getVariable? ⟨⟨0, 0⟩⟩).isSome = true := by decide
  have hslack : (s.getVariable? ⟨⟨1, 0⟩⟩).isSome = true := by decide
  obtain ⟨⟨size, t, h, hsame⟩, ⟨size', t', h', hsame'⟩⟩ :=
    hs.query_restores hvariable hslack
  have hroom : ∀ op : Operation Float, (s.perform op).1.Addressable := by
    intro op
    have hnext : (({ options := ⟨10000, Scalar.nan, Scalar.nan⟩ } : Spec Float).run
        [.addVariable none, .addConstraint [1] [⟨⟨0, 0⟩⟩] .le 100 4 0, op]).Reachable :=
      reachable_run _ (show 24 ≤ UInt32.size by decide)
    exact hnext.1
  refine ⟨hs, ⟨size, t, h, hsame ?_⟩, ⟨size', t', h', hsame' ?_⟩⟩
  · have hperform := hroom (.minSize ⟨⟨0, 0⟩⟩ ⟨⟨1, 0⟩⟩)
    rwa [perform, h] at hperform
  · have hperform := hroom (.maxSize ⟨⟨0, 0⟩⟩ ⟨⟨1, 0⟩⟩)
    rwa [perform, h'] at hperform

end Spec

end ElasticLayout
