import ElasticLayout.Proofs.Imprint
import ElasticLayout.Proofs.QueryTrace
import ElasticLayout.Proofs.WornSpec

/-!
# Problems of worn specifications

A worn copy of a specification lists its entries in the same order and builds the same problems, so
a solve and a size query do to it what they do to the specification.

* `Spec.constraintList_worn` -- the listing of the constraints;
* `Registry.MentionsLive`, `Spec.columns_worn`, `Spec.problem_worn` -- the problem, if no stale
  variable is mentioned;
* `Spec.solve_worn` -- solves;
* `Spec.pinned_worn`, `Spec.mentionsLive_pinned` -- what a size query solves.
-/

namespace ElasticLayout

variable {α : Type}

namespace Spec

variable {w : Wear} {s : Spec α}

/-! ### Listings -/

theorem constraintList_worn (hs : s.Addressable) :
    (s.worn w).constraintList = s.constraintList.map fun p => (p.1.worn w, p.2.worn w) := by
  have hlist : (s.worn w).constraintStore.toList = _ := SlotStore.toList_worn hs.2
  unfold constraintList
  rw [hlist, List.map_map, List.map_map]
  rfl

/-- A selection of constraints that does not look at handles. -/
theorem selected_worn (hs : s.Addressable) {p q : Constraint α → Bool}
    (h : ∀ c, q (c.worn w) = p c) :
    ((s.worn w).constraintList.filter fun (_, c) => q c).map (·.1)
      = ((s.constraintList.filter fun (_, c) => p c).map (·.1)).map (·.worn w) := by
  rw [constraintList_worn hs, List.filter_map, List.map_map, List.map_map]
  refine congrArg (List.map _) (List.filter_congr fun kc _ => ?_)
  exact h kc.2

theorem mentions_worn (c : Constraint α) (id : VariableId) :
    (c.worn w).mentions (id.worn w) = c.mentions id := by
  show (c.left.map _).any _ = c.left.any _
  rw [List.any_map]
  refine congrArg c.left.any (funext fun term => Bool.eq_iff_iff.2 ?_)
  exact beq_iff_eq.trans ((VariableId.worn_inj (w := w)).trans beq_iff_eq.symm)

theorem mentioning_worn (hs : s.Addressable) (id : VariableId) :
    (s.worn w).mentioning (id.worn w) = (s.mentioning id).map (·.worn w) :=
  selected_worn hs (q := fun c => c.role == .user && c.mentions (id.worn w))
    (p := fun c => c.role == .user && c.mentions id) fun c => by
      rw [mentions_worn]
      exact congrArg (· && _) (c.role.beq_user_worn w)

theorem participants_worn (hs : s.Addressable) :
    (s.worn w).participants = s.participants.map (·.worn w) := by
  have hlist : (s.worn w).constraintList.map (·.2)
      = (s.constraintList.map (·.2)).map (·.worn w) := by
    rw [constraintList_worn hs, List.map_map, List.map_map]
    rfl
  unfold participants
  rw [hlist, List.filter_map]
  rfl

end Spec

/-! ### Columns -/

/-- No constraint mentions a stale variable. -/
def Registry.MentionsLive (r : Registry α) : Prop :=
  ∀ k c, r.constraint? k = some c → ∀ term ∈ c.left, (r.extent? term.var).isSome = true

/-- The order of handles at different indices is the same after the wear. -/
theorem Slot.precedes_worn {w : CellWear} {a b : Slot} (h : a.index = b.index → a = b) :
    (a.worn w).precedes (b.worn w) = a.precedes b := by
  unfold precedes
  by_cases hindex : a.index = b.index
  · rw [h hindex]
    simp [UInt32.lt_irrefl]
  · show (decide (a.index < b.index) || a.index == b.index && _) = _
    rw [beq_false_of_ne hindex, Bool.false_and, Bool.false_and]

theorem insertColumn_worn {w : Wear} {id : VariableId} {ids : List VariableId}
    (h : ∀ other ∈ ids, id.slot.index = other.slot.index → id = other) :
    insertColumn (id.worn w) (ids.map (·.worn w)) = (insertColumn id ids).map (·.worn w) := by
  induction ids with
  | nil => rfl
  | cons other rest ih =>
    have hother := h other List.mem_cons_self
    have hsame : id.worn w = other.worn w ↔ id = other := VariableId.worn_inj
    have hprecedes : (id.worn w).slot.precedes (other.worn w).slot = id.slot.precedes other.slot :=
      Slot.precedes_worn fun hindex => VariableId.slot_inj.2 (hother hindex)
    rw [List.map_cons]
    unfold insertColumn
    rw [if_congr hsame rfl rfl, hprecedes, ih fun o ho => h o (List.mem_cons_of_mem _ ho)]
    split
    · rfl
    · split
      · rfl
      · rfl

namespace Spec

variable {w : Wear} {s : Spec α}

theorem foldl_insertColumn_worn {terms : List (Summand α)}
    (hterms : ∀ term ∈ terms, (s.getVariable? term.var).isSome = true) {ids : List VariableId}
    (hids : ∀ id ∈ ids, (s.getVariable? id).isSome = true) :
    (terms.map (·.worn w)).foldl (fun ids term => insertColumn term.var ids) (ids.map (·.worn w))
      = (terms.foldl (fun ids term => insertColumn term.var ids) ids).map (·.worn w) := by
  induction terms generalizing ids with
  | nil => rfl
  | cons term rest ih =>
    have hterm := hterms term List.mem_cons_self
    have hinsert := insertColumn_worn (w := w) fun other hother =>
      eq_of_live_of_index_eq hterm (hids other hother)
    rw [List.map_cons, List.foldl_cons, List.foldl_cons]
    show (rest.map _).foldl _ (insertColumn (term.var.worn w) (ids.map _)) = _
    rw [hinsert]
    refine ih (fun t ht => hterms t (List.mem_cons_of_mem _ ht)) fun id hid => ?_
    rcases mem_insertColumn.1 hid with rfl | hid
    · exact hterm
    · exact hids id hid

/-- **The columns are the same variables.** -/
theorem columns_worn (hs : s.Addressable) (h : s.registry.MentionsLive) :
    (s.worn w).columns = s.columns.map (·.worn w) := by
  have hlive : ∀ c ∈ s.participants, ∀ term ∈ c.left, (s.getVariable? term.var).isSome = true := by
    intro c hc term hterm
    obtain ⟨⟨k, d⟩, hkd, rfl⟩ := List.mem_map.1 (List.mem_filter.1 hc).1
    have hextent := h k d ((mem_constraintList hs).1 hkd) term hterm
    exact Option.isSome_map.symm.trans hextent
  unfold columns
  rw [participants_worn hs]
  -- The fold over the participants, from any live columns on.
  suffices hfold : ∀ cs : List (Constraint α),
      (∀ c ∈ cs, ∀ term ∈ c.left, (s.getVariable? term.var).isSome = true) →
      ∀ ids : List VariableId, (∀ id ∈ ids, (s.getVariable? id).isSome = true) →
        (cs.map (·.worn w)).foldl
            (fun ids c => c.left.foldl (fun ids term => insertColumn term.var ids) ids)
            (ids.map (·.worn w))
          = (cs.foldl (fun ids c => c.left.foldl (fun ids term => insertColumn term.var ids) ids)
              ids).map (·.worn w) from
    hfold s.participants hlive [] fun id hid => absurd hid List.not_mem_nil
  intro cs
  induction cs with
  | nil => exact fun _ ids _ => rfl
  | cons c rest ih =>
    intro hcs ids hids
    have hc := hcs c List.mem_cons_self
    rw [List.map_cons, List.foldl_cons, List.foldl_cons]
    show (rest.map _).foldl _ ((c.left.map _).foldl _ _) = _
    rw [foldl_insertColumn_worn hc hids]
    refine ih (fun d hd => hcs d (List.mem_cons_of_mem _ hd)) _ fun id hid => ?_
    rcases mem_foldl_insertColumn.1 hid with ⟨term, hterm, rfl⟩ | hid
    · exact hc term hterm
    · exact hids id hid

/-! ### Problems -/

variable [Scalar α]

theorem coefficientOf_worn (c : Constraint α) (id : VariableId) :
    (c.worn w).coefficientOf (id.worn w) = c.coefficientOf id := by
  show (c.left.map _).foldl _ _ = _
  rw [List.foldl_map]
  unfold Constraint.coefficientOf
  refine congrArg (fun f => c.left.foldl f 0) (funext fun sum => funext fun term => ?_)
  exact if_congr VariableId.worn_inj rfl rfl

/-- The problem of constraints after the wear, over columns after the wear. -/
theorem problemOver_worn (columns : List VariableId) (cs : List (Constraint α)) :
    problemOver (columns.map (·.worn w)) (cs.map (·.worn w)) = problemOver columns cs := by
  have hrow : ∀ c : Constraint α, (columns.map (·.worn w)).map (c.worn w).coefficientOf
      = columns.map c.coefficientOf := by
    intro c
    rw [List.map_map]
    exact List.map_congr_left fun id _ => coefficientOf_worn c id
  unfold problemOver
  congr 1
  · exact List.length_map _
  · rw [List.filter_map, List.map_map]
    refine List.map_congr_left fun c _ => ?_
    dsimp only [Function.comp_apply]
    rw [hrow]
    rfl
  · rw [List.filter_map, List.map_map]
    refine List.map_congr_left fun c _ => ?_
    dsimp only [Function.comp_apply]
    rw [hrow]
    rfl

/-- **The problem is the same.** -/
theorem problem_worn (hs : s.Addressable) (h : s.registry.MentionsLive) :
    (s.worn w).problem = s.problem := by
  rw [problem_eq, problem_eq, columns_worn hs h, participants_worn hs, problemOver_worn]

/-! ### Solving -/

omit [Scalar α] in
theorem assign_worn (values : List (VariableId × α)) :
    (s.worn w).assign (values.map fun p => (p.1.worn w, p.2)) = (s.assign values).worn w :=
  foldl_worn (fun _ p => modifyVariable_worn (fun _ => by rfl) p.1) values s

/-- A solve, as the solve of a problem. -/
theorem solve_eq_of_problem {p : Problem α} (h : s.problem = p) :
    s.solve = match p.solve s.options.maxIterations with
      | .ok x => { s.assign (s.columns.zip x.toList) with result := .optimal }
      | .error e => { s with result := e.resultCode } := by
  subst h
  unfold solve outcome
  cases s.problem.solve s.options.maxIterations with
  | error e => rfl
  | ok x => rfl

theorem solve_worn (hs : s.Addressable) (h : s.registry.MentionsLive) :
    (s.worn w).solve = s.solve.worn w := by
  rw [solve_eq_of_problem (problem_worn hs h), solve_eq_of_problem (s := s) rfl]
  rw [show (s.worn w).options = s.options from rfl]
  cases s.problem.solve s.options.maxIterations with
  | error e => rfl
  | ok x =>
    have hzip : (s.columns.map (·.worn w)).zip x.toList
        = (s.columns.zip x.toList).map fun p => (p.1.worn w, p.2) := List.zip_map_left ..
    dsimp only
    rw [columns_worn hs h, hzip, assign_worn]
    rfl

/-! ### Size queries -/

omit [Scalar α] in
theorem setSuspended_worn (suspended : Bool) (k : ConstraintId) :
    (s.worn w).setSuspended suspended (k.worn w) = (s.setSuspended suspended k).worn w := by
  unfold setSuspended
  dsimp only
  rw [getConstraint?_worn]
  cases hc : s.getConstraint? k with
  | none => rfl
  | some c =>
    cases he : c.elastic with
    | none =>
      have he' : (c.worn w).elastic = none := congrArg (Option.map (Elastic.worn w)) he
      dsimp only [Option.map_some]
      rw [he', he]
      exact modifyConstraint_worn (fun _ => by rfl) k
    | some e =>
      have he' : (c.worn w).elastic = some (e.worn w) := congrArg (Option.map (Elastic.worn w)) he
      have hbounds : (((s.worn w).getVariable? (e.worn w).slack).map (·.bounds)).getD []
          = (((s.getVariable? e.slack).map (·.bounds)).getD []).map (·.worn w) := by
        show (((s.worn w).getVariable? (e.slack.worn w)).map _).getD [] = _
        rw [getVariable?_worn]
        cases s.getVariable? e.slack with
        | none => rfl
        | some v => exact v.bounds_worn w
      dsimp only [Option.map_some]
      rw [he', he]
      dsimp only
      rw [hbounds]
      exact foldl_worn (f := fun s k => s.modifyConstraint k fun c =>
        { c with isSuspended := suspended }) (fun _ k => modifyConstraint_worn (fun _ => by rfl) k)
        (k :: e.penalty :: _) s

theorem suspendable_worn (hs : s.Addressable) :
    (s.worn w).suspendable = s.suspendable.map (·.worn w) :=
  selected_worn hs (q := fun c => c.role == .user && c.isSoft && !c.isSuspended)
    (p := fun c => c.role == .user && c.isSoft && !c.isSuspended) fun c =>
      congrArg (fun b => b && c.isSoft && !c.isSuspended) (c.role.beq_user_worn w)

theorem pin_worn (hs : s.Tidy) {id : VariableId} {target : α}
    (hroom : (s.pin id target).2.Addressable) :
    (s.worn w).pin (id.worn w) target
      = ((s.pin id target).1.worn w, (s.pin id target).2.worn w) := by
  have hregister := register_worn (w := w) hs (c := s.pinConstraint id target) hroom
  unfold pinConstraint at hregister
  rwa [← Constraint.fresh_worn] at hregister

theorem pinned_worn (hs : s.Tidy) {width height : VariableId} {target : α}
    (hroom : (s.pinned width height target).2.Addressable) :
    (s.worn w).pinned (width.worn w) (height.worn w) target
      = (((s.pinned width height target).1.1.worn w, (s.pinned width height target).1.2.worn w),
        (s.pinned width height target).2.worn w) := by
  have haddressable : s.Addressable := (s.evolves_pinned width height target).addressable hroom
  obtain ⟨s₀, hs₀⟩ : ∃ t, t = s.suspendable.foldl (setSuspended true) s := ⟨_, rfl⟩
  have hsuspended : s₀.worn w = (s.worn w).suspendable.foldl (setSuspended true) (s.worn w) := by
    rw [suspendable_worn haddressable, hs₀,
      foldl_worn fun s k => setSuspended_worn (s := s) true k]
  have htidy : s₀.Tidy := hs₀ ▸ (Evolves.foldl_zero (evolves_setSuspended true) _ s).tidy hs
  rw [pinned_eq hs₀] at hroom
  rw [pinned_eq hs₀, pinned_eq hsuspended, pin_worn htidy ((evolves_pin _ _ _).addressable hroom)]
  dsimp only
  rw [pin_worn ((evolves_pin _ _ _).tidy htidy) hroom]

/-- A pin mentions a live variable. -/
theorem mentionsLive_pin (hs : s.Tidy) (h : s.registry.MentionsLive) (id : VariableId) (target : α)
    (hid : (s.getVariable? id).isSome = true) (hroom : (s.pin id target).2.Addressable) :
    (s.pin id target).2.registry.MentionsLive ∧
      ∀ v, ((s.pin id target).2.getVariable? v).isSome = (s.getVariable? v).isSome := by
  have hplaced : (s.place (s.pinConstraint id target)).2.Addressable :=
    (evolves_attach _ (s.place (s.pinConstraint id target)).1).addressable hroom
  obtain ⟨-, hregistry⟩ := registry_place hs hplaced
  rw [pin_eq_place hs hplaced]
  have hextent : (s.place (s.pinConstraint id target)).2.registry.extent? = s.registry.extent? := by
    rw [hregistry]
    rfl
  refine ⟨fun k c hk term hterm => ?_, fun v => ?_⟩
  · rw [hextent]
    rw [hregistry, Registry.constraint?_putConstraint] at hk
    split at hk
    · rw [← Option.some.inj hk] at hterm
      rw [List.mem_singleton.1 (show term ∈ [⟨1, id⟩] from hterm)]
      exact Option.isSome_map.trans hid
    · exact h k c hk term hterm
  · have hsame := congrArg Option.isSome (congrFun hextent v)
    exact Option.isSome_map.symm.trans (hsame.trans Option.isSome_map)

/-- **What a query solves mentions no stale variable.** -/
theorem mentionsLive_pinned (hs : s.Tidy) (h : s.registry.MentionsLive) {width height : VariableId}
    {target : α} (hwidth : (s.getVariable? width).isSome = true)
    (hheight : (s.getVariable? height).isSome = true)
    (hroom : (s.pinned width height target).2.Addressable) :
    (s.pinned width height target).2.registry.MentionsLive := by
  obtain ⟨s₀, hs₀⟩ : ∃ t, t = s.suspendable.foldl (setSuspended true) s := ⟨_, rfl⟩
  have htidy : s₀.Tidy := hs₀ ▸ (Evolves.foldl_zero (evolves_setSuspended true) _ s).tidy hs
  have hvariables : s₀.variableStore = s.variableStore :=
    hs₀ ▸ variableStore_foldl_setSuspended true _ s
  have hlive : ∀ v, s₀.getVariable? v = s.getVariable? v := fun v => by
    unfold getVariable?
    rw [hvariables]
  -- A suspended constraint mentions what it did.
  have hmentions : s₀.registry.MentionsLive := by
    intro k c hk term hterm
    have hextent : s₀.registry.extent? term.var = s.registry.extent? term.var :=
      congrArg (Option.map Variable.extent) (hlive term.var)
    rw [hextent]
    rw [hs₀, registry_foldl_setSuspended, Registry.constraint?_mark] at hk
    split at hk
    · obtain ⟨d, hd, rfl⟩ := Option.map_eq_some_iff.1 hk
      exact h k d hd term hterm
    · exact h k c hk term hterm
  rw [pinned_eq hs₀] at hroom ⊢
  dsimp only at hroom ⊢
  obtain ⟨hfirst, hfirstLive⟩ := mentionsLive_pin htidy hmentions height target
    (by rwa [hlive]) ((evolves_pin _ _ _).addressable hroom)
  exact (mentionsLive_pin ((evolves_pin _ _ _).tidy htidy) hfirst _ _
    (by rwa [hfirstLive, hlive]) hroom).1

end Spec

end ElasticLayout
