import ElasticLayout.Proofs.Orderly
import ElasticLayout.Proofs.Readdition
import ElasticLayout.Proofs.SlackReach
import ElasticLayout.Proofs.WornCalls

/-!
# Adding a constraint and removing it again

A constraint that is added takes the cells due next, up to three of constraints and one of
variables.  If it is removed again, its cells are due in the same order as before, each under its
next generation.  So the specification is a worn copy of the one before, and whatever is done to it
later builds the same problems.

* `CellWear.turned` -- the wear of cells that were taken and vacated once;
* `SlotStore.exists_worn_of_turned` -- then a store is a worn copy of the one before;
* `Registry.SlackGiven.before_unique` -- what is there without a slack is told by what is there with
  it;
* `Spec.Turned` -- the entries are as before, and some cells were taken and vacated once;
* `Spec.Turned.exists_worn` -- such a specification is a worn copy;
* `Spec.turned_of_rigid`, `Spec.turned_of_softInequality` -- what an addition and a removal leave;
* `Spec.Reachable.removal_undoes_addition` -- the main result.
-/

namespace ElasticLayout

variable {α : Type}

/-! ### Cells that were taken and vacated once -/

/-- The cells of these handles are one generation ahead, and there are at least so many cells. -/
def CellWear.turned (taken : List Slot) (n : Nat) (hindex : ∀ k ∈ taken, k.index.toNat < n)
    (hn : n ≤ UInt32.size) : CellWear where
  ahead i := if i ∈ taken.map Slot.index then 1 else 0
  cells := n
  ahead_eq_zero i hi := if_neg fun hmem => by
    obtain ⟨k, hk, rfl⟩ := List.mem_map.1 hmem
    exact absurd (hindex k hk) (by omega)
  cells_le := hn

section Turned

variable {taken : List Slot} {n : Nat} {hindex : ∀ k ∈ taken, k.index.toNat < n}
  {hn : n ≤ UInt32.size} {k : Slot}

theorem Slot.worn_turned_of_mem (hk : k ∈ taken) :
    k.worn (.turned taken n hindex hn) = k.next := by
  refine SlotStore.eq_of_index_eq rfl ?_
  show k.generation + (if k.index ∈ taken.map Slot.index then 1 else 0) = k.generation + 1
  rw [if_pos (List.mem_map_of_mem hk)]

theorem Slot.worn_turned_of_not_mem (hk : k.index ∉ taken.map Slot.index) :
    k.worn (.turned taken n hindex hn) = k := by
  refine SlotStore.eq_of_index_eq rfl ?_
  show k.generation + (if k.index ∈ taken.map Slot.index then 1 else 0) = k.generation
  rw [if_neg hk, UInt32.add_zero]

end Turned

namespace SlotStore

variable {s u : SlotStore α}

/-- There are as many handles due as there may be new cells, and more. -/
theorem le_length_upcoming (n : Nat) : n - s.cells.size ≤ (s.upcoming n).length := by
  unfold upcoming
  rw [List.length_append, List.length_map, List.length_map, List.length_range']
  exact Nat.le_add_left _ _

/-- The handles due have indices in range. -/
theorem toNat_index_lt_of_mem_upcoming (h : s.Tidy) {n : Nat} (hle : s.cells.size ≤ n)
    (hn : n ≤ UInt32.size) {k : Slot} (hk : k ∈ s.upcoming n) : k.index.toNat < n := by
  rcases List.mem_append.1 hk with hvacant | hnew
  · obtain ⟨i, hi, rfl⟩ := List.mem_map.1 hvacant
    obtain ⟨g, hg⟩ := h.vacant i hi
    exact (Array.getElem?_eq_some_iff.1 hg).1.trans_le hle
  · obtain ⟨i, hi, rfl⟩ := List.mem_map.1 hnew
    rw [List.mem_range'_1] at hi
    have htoNat : (UInt32.ofNat i).toNat = i :=
      UInt32.toNat_ofNat_of_lt' (show i < UInt32.size by omega)
    show (UInt32.ofNat i).toNat < n
    omega

/-- Handles that are taken from a long queue are taken from a short one, if it holds them all. -/
theorem upcoming_of_taken {taken rest : List Slot} {n : Nat}
    (hle : s.cells.size ≤ u.cells.size) (hn : u.cells.size ≤ n)
    (hbefore : s.upcoming n = taken ++ rest) (hafter : u.upcoming n = rest) :
    s.upcoming u.cells.size = taken ++ u.upcoming u.cells.size := by
  rw [s.upcoming_append hle hn, ← hafter, u.upcoming_append le_rfl hn, ← List.append_assoc]
    at hbefore
  exact List.append_cancel_right hbefore

/-- Cells that were taken and vacated once are due in the same order. -/
theorem index_upcoming_of_turned {taken rest : List Slot} {n : Nat}
    (hle : s.cells.size ≤ u.cells.size) (hn : u.cells.size ≤ n)
    (hbefore : s.upcoming u.cells.size = taken ++ rest)
    (hafter : u.upcoming u.cells.size = taken.map Slot.next ++ rest) :
    (u.upcoming n).map Slot.index = (s.upcoming n).map Slot.index := by
  rw [s.upcoming_append hle hn, u.upcoming_append le_rfl hn, hbefore, hafter]
  simp only [List.map_append, List.map_map]
  rfl

/-- Stores with the same entries list them alike. -/
theorem toList_congr (hs : s.Addressable) (hu : u.Addressable) (hget : ∀ k, u.get? k = s.get? k) :
    u.toList = s.toList := by
  have hirrefl : Std.Irrefl fun a b : Slot × α => a.1.index < b.1.index :=
    ⟨fun a => UInt32.lt_irrefl a.1.index⟩
  have hantisymm : Std.Antisymm fun a b : Slot × α => a.1.index < b.1.index :=
    ⟨fun a b hab hba => absurd (UInt32.lt_trans hab hba) (UInt32.lt_irrefl a.1.index)⟩
  refine (toList_pairwise hu).eq_of_mem_iff (toList_pairwise hs) fun p => ?_
  rw [mem_toList hu, mem_toList hs, hget]

/-- **A store whose cells were taken and vacated once is a worn copy of the one before**, if it has
the same entries. -/
theorem exists_worn_of_turned (hs : s.Orderly) (hu : u.Tidy) (hroom : u.Addressable)
    (hle : s.cells.size ≤ u.cells.size) (hget : ∀ k, u.get? k = s.get? k) {taken rest : List Slot}
    (hbefore : s.upcoming u.cells.size = taken ++ rest)
    (hafter : u.upcoming u.cells.size = taken.map Slot.next ++ rest) :
    ∃ w : CellWear, (∀ k value, s.get? k = some value → k.worn w = k) ∧
      ∀ f : α → α, (∀ k value, s.get? k = some value → f value = value) → u = s.worn w f := by
  have hindex : ∀ k ∈ taken, k.index.toNat < u.cells.size := fun k hk =>
    toNat_index_lt_of_mem_upcoming hs.tidy hle hroom
      (by rw [hbefore]; exact List.mem_append_left _ hk)
  obtain ⟨w, hw⟩ : ∃ w, w = CellWear.turned taken u.cells.size hindex hroom := ⟨_, rfl⟩
  have hlive : ∀ k value, s.get? k = some value → k.worn w = k := by
    intro k value hk
    rw [hw]
    refine Slot.worn_turned_of_not_mem fun hmem => ?_
    obtain ⟨a, ha, heq⟩ := List.mem_map.1 hmem
    exact index_ne_of_mem_upcoming hs.tidy hroom hk
      (by rw [hbefore]; exact List.mem_append_left _ ha) heq.symm
  have hnodup := upcoming_nodup hs.tidy hroom
  rw [hbefore, List.map_append, List.nodup_append] at hnodup
  refine ⟨w, hlive, fun f hf => eq_worn hs.tidy hs.listed hu hroom ?_ (fun k => ?_) ?_⟩
  · rw [hw]
    exact (max_eq_right hle).symm
  · rw [hget]
    cases hk : s.get? k with
    | some value => rw [hlive k value hk, hk, Option.map_some, hf k value hk]
    | none =>
      -- No live handle is the worn copy of another.
      cases hworn : s.get? (k.worn w) with
      | none => rfl
      | some value =>
        rw [Slot.worn_inj.1 (hlive _ value hworn), hk] at hworn
        exact absurd hworn (by simp)
  · rw [hbefore, hafter, List.map_append]
    refine congrArg₂ (· ++ ·) (List.map_congr_left fun k hk => ?_)
      ((List.map_id rest).symm.trans (List.map_congr_left fun k hk => ?_))
    · rw [hw]
      exact (Slot.worn_turned_of_mem hk).symm
    · rw [hw]
      refine (Slot.worn_turned_of_not_mem fun hmem => ?_).symm
      exact hnodup.2.2 _ hmem _ (List.mem_map_of_mem hk) rfl

end SlotStore

/-! ### Without the slack -/

namespace Registry.SlackGiven

variable [Scalar α] {r r' t : Registry α} {k b b' : ConstraintId} {c : Constraint α}
  {e : Elastic α}

/-- The slack tells its bound constraint. -/
theorem bound_unique (g : r.SlackGiven t k c e b) (g' : r'.SlackGiven t k c e b') : b' = b := by
  have hslack := g'.slack.symm.trans g.slack
  exact Option.some.inj (congrArg Extent.lowerBound (Option.some.inj hslack))

/-- **What is there without a slack is told by what is there with it.** -/
theorem before_unique (g : r.SlackGiven t k c e b) (g' : r'.SlackGiven t k c e b') : r' = r := by
  obtain rfl := g.bound_unique g'
  refine Registry.ext (funext fun v => ?_) (funext fun j => ?_)
  · by_cases hv : v = e.slack
    · rw [hv, g.no_slack, g'.no_slack]
    · rw [← g.extents v hv, ← g'.extents v hv]
  · by_cases hk : j = k
    · rw [hk, g.before, g'.before]
    by_cases hb : j = b'
    · rw [hb, g.no_bound, g'.no_bound]
    by_cases hp : j = e.penalty
    · rw [hp, g.no_penalty, g'.no_penalty]
    · rw [← g.constraints j hk hb hp, ← g'.constraints j hk hb hp]

end Registry.SlackGiven

namespace Spec

theorem result_place (s : Spec α) (c : Constraint α) : (s.place c).2.result = s.result := by
  show (s.retain c.left).result = s.result
  unfold retain
  refine foldl_keeps Spec.result (fun _ _ => ?_) c.left s
  rfl

/-! ### Specifications with turned cells -/

/-- The entries are as before, and so is everything else, but for some cells that were taken in one
order and are due again in the same order. -/
structure Turned (s u : Spec α) : Prop where
  addressable : u.Addressable
  variables_le : s.variableStore.cells.size ≤ u.variableStore.cells.size
  constraints_le : s.constraintStore.cells.size ≤ u.constraintStore.cells.size
  sameVariables : ∀ id, u.getVariable? id = s.getVariable? id
  sameConstraints : ∀ k, u.getConstraint? k = s.getConstraint? k
  options : u.options = s.options
  result : u.result = s.result
  queues : ∃ (takenVariables takenConstraints : List Slot) (vs ks : List Slot),
    s.Due u.variableStore.cells.size u.constraintStore.cells.size (takenVariables ++ vs)
      (takenConstraints ++ ks) ∧
    u.Due u.variableStore.cells.size u.constraintStore.cells.size
      (takenVariables.map Slot.next ++ vs) (takenConstraints.map Slot.next ++ ks)

section Fixed

variable [Scalar α] {s : Spec α} {w : Wear}

/-- A variable keeps its bound constraints if all live constraints keep their handles. -/
theorem variable_worn_eq_of_fixed (howned : s.registry.Owned none)
    (hconstraints : ∀ k c, s.getConstraint? k = some c → k.worn w = k) (id : VariableId)
    {v : Variable α} (hv : s.getVariable? id = some v) : v.worn w = v := by
  have hrange := howned.range id v.extent (registry_extent?_eq_some hv)
  have hend : ∀ {handle : Option ConstraintId} {relation : Relation} {limit : α} {needed : Prop},
      s.registry.EndKept id handle relation limit needed → handle.map (·.worn w) = handle := by
    intro handle relation limit needed hkept
    cases handle with
    | none => rfl
    | some k =>
      obtain ⟨c, hc, -⟩ := hkept.2 k rfl
      exact congrArg some (hconstraints k c hc)
  unfold Variable.worn
  rw [show v.lowerBound.map (·.worn w) = v.lowerBound from hend hrange.lower,
    show v.upperBound.map (·.worn w) = v.upperBound from hend hrange.upper]

/-- A constraint keeps what it names if all live variables and constraints keep their handles. -/
theorem constraint_worn_eq_of_fixed (howned : s.registry.Owned none)
    (hvariables : ∀ id v, s.getVariable? id = some v → id.worn w = id)
    (hconstraints : ∀ k c, s.getConstraint? k = some c → k.worn w = k) {k : ConstraintId}
    {c : Constraint α} (hc : s.getConstraint? k = some c) : c.worn w = c := by
  have hextents : ∀ id x, s.registry.extent? id = some x → id.worn w = id := by
    intro id x hx
    obtain ⟨v, hv, -⟩ := getVariable?_of_extent? hx
    exact hvariables id v hv
  have hleft : c.left.map (·.worn w) = c.left := by
    refine (List.map_congr_left fun term hterm => ?_).trans (List.map_id c.left)
    obtain ⟨x, hx⟩ := howned.mentioned_live hc hterm
    show { term with var := term.var.worn w } = term
    rw [hextents term.var x hx]
  have hrole : c.role.worn w = c.role := by
    cases hrole : c.role with
    | user => rfl
    | bound id =>
      obtain ⟨x, hx, -⟩ := howned.bound k c id hc hrole
      exact congrArg Role.bound (hextents id x hx)
    | slackPenalty j =>
      obtain ⟨d, -, hd, -⟩ := howned.penalty_owner k c j hc hrole
      exact congrArg Role.slackPenalty (hconstraints j d hd)
  have helastic : c.elastic.map (·.worn w) = c.elastic := by
    cases he : c.elastic with
    | none => rfl
    | some e =>
      have howns := howned.owns k c e hc he
      obtain ⟨q, hq, -⟩ := howns.penalty
      obtain ⟨x, hx, -⟩ := howns.slack
      show some { e with slack := e.slack.worn w, penalty := e.penalty.worn w } = some e
      rw [hextents e.slack x hx, hconstraints e.penalty q hq]
  unfold Constraint.worn
  rw [hleft, hrole, helastic]

end Fixed

namespace Turned

variable {s u : Spec α}

theorem variableList (h : s.Turned u) (hs : s.Addressable) : u.variableList = s.variableList := by
  unfold Spec.variableList
  rw [SlotStore.toList_congr hs.1 h.addressable.1 fun k => h.sameVariables ⟨k⟩]

theorem constraintList (h : s.Turned u) (hs : s.Addressable) :
    u.constraintList = s.constraintList := by
  unfold Spec.constraintList
  rw [SlotStore.toList_congr hs.2 h.addressable.2 fun k => h.sameConstraints ⟨k⟩]

/-- The indices due next are the same. -/
theorem index_upcoming_variables (h : s.Turned u) {n : Nat}
    (hn : u.variableStore.cells.size ≤ n) :
    (u.variableStore.upcoming n).map Slot.index = (s.variableStore.upcoming n).map Slot.index := by
  obtain ⟨takenVariables, takenConstraints, vs, ks, hbefore, hafter⟩ := h.queues
  exact SlotStore.index_upcoming_of_turned h.variables_le hn hbefore.variableQueue
    hafter.variableQueue

theorem index_upcoming_constraints (h : s.Turned u) {n : Nat}
    (hn : u.constraintStore.cells.size ≤ n) :
    (u.constraintStore.upcoming n).map Slot.index
      = (s.constraintStore.upcoming n).map Slot.index := by
  obtain ⟨takenVariables, takenConstraints, vs, ks, hbefore, hafter⟩ := h.queues
  exact SlotStore.index_upcoming_of_turned h.constraints_le hn hbefore.constraintQueue
    hafter.constraintQueue

theorem exists_worn [Scalar α] (h : s.Turned u) (hs : s.Orderly) (howned : s.registry.Owned none) :
    ∃ w : Wear, (∀ id v, s.getVariable? id = some v → id.worn w = id) ∧
      (∀ k c, s.getConstraint? k = some c → k.worn w = k) ∧ u = s.worn w := by
  obtain ⟨takenVariables, takenConstraints, vs, ks, hbefore, hafter⟩ := h.queues
  obtain ⟨wv, hwv, hvariables⟩ := SlotStore.exists_worn_of_turned hs.variableStore hafter.tidy.1
    h.addressable.1 h.variables_le (fun k => h.sameVariables ⟨k⟩) hbefore.variableQueue
    hafter.variableQueue
  obtain ⟨wc, hwc, hconstraints⟩ := SlotStore.exists_worn_of_turned hs.constraintStore
    hafter.tidy.2 h.addressable.2 h.constraints_le (fun k => h.sameConstraints ⟨k⟩)
    hbefore.constraintQueue hafter.constraintQueue
  have hids : ∀ id v, s.getVariable? id = some v → id.worn ⟨wv, wc⟩ = id :=
    fun id v hv => VariableId.slot_inj.1 (hwv id.slot v hv)
  have hks : ∀ k c, s.getConstraint? k = some c → k.worn ⟨wv, wc⟩ = k :=
    fun k c hc => ConstraintId.slot_inj.1 (hwc k.slot c hc)
  refine ⟨⟨wv, wc⟩, hids, hks, ?_⟩
  have hvariableStore := hvariables (·.worn ⟨wv, wc⟩) fun k v hv =>
    variable_worn_eq_of_fixed howned hks ⟨k⟩ hv
  have hconstraintStore := hconstraints (·.worn ⟨wv, wc⟩) fun k c hc =>
    constraint_worn_eq_of_fixed (k := ⟨k⟩) howned hids hks hc
  obtain ⟨variableStore, constraintStore, options, result⟩ := u
  obtain rfl : options = s.options := h.options
  obtain rfl : result = s.result := h.result
  obtain rfl : variableStore = _ := hvariableStore
  obtain rfl : constraintStore = _ := hconstraintStore
  rfl

end Turned

/-! ### Adding and removing -/

section RoundTrip

variable {s : Spec α}

/-- A removal turns an addition back if it restores the entries and gives back the cells that the
addition took. -/
theorem turned_of_drop {t : Spec α} {id : ConstraintId} {m n : Nat} (hevolves : s.Evolves t m n)
    (hroom : t.Addressable) (hregistry : (t.drop id).registry = s.registry)
    (hvariables : ∀ v, (t.drop id).getVariable? v = s.getVariable? v)
    (hoptions : (t.drop id).options = s.options) (hresult : (t.drop id).result = s.result)
    {takenVariables takenConstraints vs ks : List Slot}
    (hbefore : s.Due t.variableStore.cells.size t.constraintStore.cells.size
      (takenVariables ++ vs) (takenConstraints ++ ks))
    (hafter : (t.drop id).Due t.variableStore.cells.size t.constraintStore.cells.size
      (takenVariables.map Slot.next ++ vs) (takenConstraints.map Slot.next ++ ks)) :
    s.Turned (t.drop id) := by
  have hdrop := t.evolves_drop id
  have hvariablesSize := hdrop.le_variables.antisymm hdrop.variables_le
  have hconstraintsSize := hdrop.le_constraints.antisymm hdrop.constraints_le
  refine ⟨⟨hvariablesSize.trans_le hroom.1, hconstraintsSize.trans_le hroom.2⟩,
    hevolves.variables_le.trans hdrop.variables_le,
    hevolves.constraints_le.trans hdrop.constraints_le, hvariables, fun k => ?_, hoptions, hresult,
    takenVariables, takenConstraints, vs, ks, ?_⟩
  · rw [← registry_constraint?, hregistry, registry_constraint?]
  · rw [hvariablesSize, hconstraintsSize]
    exact ⟨hbefore, hafter⟩

/-- Queues that are long enough for an elastic constraint; they may be longer than there are
handles. -/
theorem exists_due (hs : s.Tidy) {m n : Nat} (hm : s.variableStore.cells.size ≤ m)
    (hn : s.constraintStore.cells.size ≤ n) :
    ∃ v vs k k₁ k₂ ks, s.Due (m + 1) (n + 3) (v :: vs) (k :: k₁ :: k₂ :: ks) := by
  have hvariables := s.variableStore.le_length_upcoming (m + 1)
  have hconstraints := s.constraintStore.le_length_upcoming (n + 3)
  obtain ⟨v, vs, hvs⟩ : ∃ v vs, s.variableStore.upcoming (m + 1) = v :: vs :=
    List.exists_cons_of_length_pos (by omega)
  obtain ⟨k, k₁, k₂, ks, hks⟩ : ∃ k k₁ k₂ ks,
      s.constraintStore.upcoming (n + 3) = k :: k₁ :: k₂ :: ks := by
    match hqueue : s.constraintStore.upcoming (n + 3) with
    | k :: k₁ :: k₂ :: ks => exact ⟨k, k₁, k₂, ks, rfl⟩
    | [] | [_] | [_, _] =>
      rw [hqueue] at hconstraints
      simp only [List.length_nil, List.length_cons] at hconstraints
      omega
  exact ⟨v, vs, k, k₁, k₂, ks, hs, hm.trans (Nat.le_succ m), hn.trans (Nat.le_add_right n 3), hvs,
    hks⟩

variable [Scalar α] {c : Constraint α}

/-- **A constraint without slack is added and removed.** -/
theorem turned_of_rigid (hs : s.Tidy) (hrigid : c.elastic = none)
    (hhard : c.isSoftInequality = false) (hroom : (s.place c).2.Addressable) :
    s.register c = s.place c ∧ s.Turned ((s.place c).2.drop (s.place c).1) := by
  obtain ⟨hfresh, hregistry⟩ := registry_place hs hroom
  have hregister := register_eq_place hs hhard hroom
  obtain ⟨⟨id, t⟩, hplace⟩ : ∃ p, s.place c = p := ⟨_, rfl⟩
  have ht : t = (s.place c).2 := by rw [hplace]
  have hevolves := s.evolves_place c
  have hvariables : t.variableStore.upcoming = s.variableStore.upcoming :=
    ht ▸ upcoming_variables_place hs c
  have hoptions : t.options = s.options := ht ▸ s.options_place c
  have hresult : t.result = s.result := ht ▸ s.result_place c
  have hstored : ∀ v, t.getVariable? v = (s.retain c.left).getVariable? v := fun v => by
    rw [ht]
    rfl
  rw [hplace] at hfresh hregister hregistry hroom hevolves ⊢
  dsimp only at hfresh hregistry hroom hevolves ⊢
  have hlive : t.getConstraint? id = some c := by
    rw [← registry_constraint?, hregistry, Registry.constraint?_putConstraint, if_pos rfl]
  have hdrop : t.drop id = t.withdraw id :=
    drop_of_rigid fun d hd => by rwa [Option.some.inj (hd.symm.trans hlive)]
  have hregistry' : (t.drop id).registry = s.registry := by
    rw [hdrop, registry_withdraw, hregistry, Registry.putConstraint_none hfresh]
  have hbefore : s.Due t.variableStore.cells.size t.constraintStore.cells.size
      ([] ++ s.variableStore.upcoming t.variableStore.cells.size)
      ([id.slot] ++ t.constraintStore.upcoming t.constraintStore.cells.size) :=
    ⟨hs, hevolves.variables_le, hevolves.constraints_le, rfl, upcoming_place hs hplace le_rfl⟩
  have hafter := (due_self (hevolves.tidy hs)).withdraw hlive
  rw [hvariables, ← hdrop] at hafter
  refine ⟨hregister, turned_of_drop hevolves hroom hregistry' (fun v => ?_) ?_ ?_ hbefore hafter⟩
  · rw [hdrop, withdraw_of_live hlive]
    exact getVariable?_release_retain c.left (hstored v)
  · rw [hdrop]
    exact (options_withdraw t id).trans hoptions
  · rw [hdrop]
    exact (result_withdraw t id).trans hresult

variable [RangeScalar α]

/-- What it means that an elastic constraint was added: it was stored, it was given a slack, and all
this took the front of the one queue and the three fronts of the other. -/
structure ElasticAddition (s p t : Spec α) (c : Constraint α) (id b : ConstraintId)
    (e : Elastic α) : Prop where
  placed : s.place c = (id, p)
  registered : s.register c = (id, t)
  given : p.registry.SlackGiven t.registry id c e b
  touched : OnlyTouches e.slack p t
  due : s.Due t.variableStore.cells.size t.constraintStore.cells.size
    ([e.slack.slot] ++ t.variableStore.upcoming t.variableStore.cells.size)
    ([id.slot, b.slot, e.penalty.slot]
      ++ t.constraintStore.upcoming t.constraintStore.cells.size)

theorem exists_elasticAddition (hs : s.Tidy) (hrigid : c.elastic = none)
    (hsoft : c.isSoftInequality = true) (hroom : (s.register c).2.Addressable) :
    ∃ p t id b e, s.ElasticAddition p t c id b e := by
  have hplacedRoom := (evolves_attach (s.place c).2 (s.place c).1).addressable hroom
  obtain ⟨-, hregistry⟩ := registry_place hs hplacedRoom
  have hplacedTidy := (s.evolves_place c).tidy hs
  obtain ⟨⟨id, p⟩, hplace⟩ : ∃ q, s.place c = q := ⟨_, rfl⟩
  rw [hplace] at hregistry hplacedTidy
  dsimp only at hregistry hplacedTidy
  have hlive : p.getConstraint? id = some c := by
    rw [← registry_constraint?, hregistry, Registry.constraint?_putConstraint, if_pos rfl]
  obtain ⟨a, ha⟩ : ∃ a : α, c.relation.slackCoefficient? = some a := by
    refine Option.ne_none_iff_exists'.1 fun hnone => ?_
    rw [isSoftInequality_of_slackCoefficient? hnone] at hsoft
    exact absurd hsoft (by simp)
  have hregister : s.register c = (id, p.attachSlack id c a) := by
    unfold register
    rw [hplace]
    dsimp only
    rw [attach_of_softInequality hlive hrigid hsoft ha]
  have hevolves := s.evolves_register c
  rw [hregister] at hroom hevolves
  dsimp only at hroom hevolves
  obtain ⟨t, ht⟩ : ∃ t, t = p.attachSlack id c a := ⟨_, rfl⟩
  rw [← ht] at hregister hroom hevolves
  have hvariablesSize := hevolves.variables_le
  have hconstraintsSize := hevolves.constraints_le
  obtain ⟨v, vs, k, k₁, k₂, ks, hdue⟩ := exists_due hs hvariablesSize hconstraintsSize
  obtain ⟨hid, hplaced⟩ := hdue.place c
  rw [hplace] at hid hplaced
  have hid : id.slot = k := congrArg ConstraintId.slot hid
  have hinsert :
      (p.variableStore.insert (Variable.fresh none true : Variable α)).2.Addressable := by
    obtain ⟨s₁, s₂, s₃, s₄, slack, penalty, hstages⟩ := exists_slackStages p id c a
    have hroom₁ := (hstages.room₁ (ht ▸ hroom)).1
    rwa [hstages.inserted] at hroom₁
  obtain ⟨hafter, hgiven⟩ := hplaced.attachSlack_of_room hinsert hlive a
  have htouched := onlyTouches_attachSlack (c := c) hplacedTidy (ht ▸ hroom)
  rw [(hplaced.insertVariable _).1] at htouched
  rw [← ht] at hafter hgiven htouched
  refine ⟨p, t, id, ⟨k₁⟩, ⟨⟨v⟩, a, ⟨k₂⟩⟩, hplace, hregister, hgiven hroom, htouched, hs,
    hvariablesSize, hconstraintsSize, ?_, ?_⟩
  · exact SlotStore.upcoming_of_taken hvariablesSize hafter.variables_le hdue.variableQueue
      hafter.variableQueue
  · rw [hid]
    exact SlotStore.upcoming_of_taken hconstraintsSize hafter.constraints_le hdue.constraintQueue
      hafter.constraintQueue

/-- **An elastic constraint is added and removed with all it owns.** -/
theorem turned_of_softInequality (hs : s.Tidy) (howned : s.registry.Owned none)
    (hrole : c.role = .user) (hrigid : c.elastic = none) (hresumed : c.isSuspended = false)
    (hleft : ∀ term ∈ c.left, s.isUserVariable term.var = true)
    (hsoft : c.isSoftInequality = true) (hroom : (s.register c).2.Addressable) :
    s.Turned ((s.register c).2.drop (s.register c).1) := by
  have hplacedRoom := (evolves_attach (s.place c).2 (s.place c).1).addressable hroom
  obtain ⟨hfresh, hregistry⟩ := registry_place hs hplacedRoom
  have hevolves := s.evolves_register c
  have howned' := owned_register hs howned hrole hrigid hresumed hleft hroom
  obtain ⟨p, t, id, b, e, h⟩ := exists_elasticAddition hs hrigid hsoft hroom
  have hp : p = (s.place c).2 := by rw [h.placed]
  have hextent : ∀ v, p.registry.extent? v = s.registry.extent? v :=
    fun v => hp ▸ extent?_place s c v
  have hoptions : p.options = s.options := hp ▸ s.options_place c
  have hresult : p.result = s.result := hp ▸ s.result_place c
  have hstored : ∀ v, p.getVariable? v = (s.retain c.left).getVariable? v := fun v => by
    rw [hp]
    rfl
  rw [h.placed] at hfresh hregistry
  rw [h.registered] at hroom hevolves howned' ⊢
  dsimp only at hfresh hregistry hroom hevolves howned' ⊢
  -- What is there without the slack is what was stored.
  have hshown : (c.withSlack e).shown = c := by
    have hnew : ∀ term ∈ c.left, term.var ≠ e.slack := by
      intro term hterm heq
      obtain ⟨x, hx, -⟩ := (s.isUserVariable_iff_extent? term.var).1 (hleft term hterm)
      rw [← hextent, heq, h.given.no_slack] at hx
      exact absurd hx (by simp)
    rw [Constraint.shown_withSlack hnew, ← hrigid]
  obtain ⟨b', g⟩ := slackGiven_detach howned' h.given.after rfl
  have hdue := (due_self (hevolves.tidy hs)).drop h.given.after rfl g
  rw [hshown] at g
  obtain rfl := h.given.bound_unique g
  have hdetached := h.given.before_unique g
  have htouched := onlyTouches_detach howned' h.given.after rfl
  have hregistry' : (t.drop id).registry = s.registry := by
    show ((t.detach id).withdraw id).registry = _
    rw [registry_withdraw, hdetached, hregistry, Registry.putConstraint_none hfresh]
  refine turned_of_drop hevolves hroom hregistry' (fun v => ?_) ?_ ?_ h.due hdue
  · by_cases hv : v = e.slack
    · have hnone : s.registry.extent? v = none := by rw [← hextent, hv, h.given.no_slack]
      have hnone' : (t.drop id).registry.extent? v = none := by rw [hregistry', hnone]
      rw [Option.map_eq_none_iff.1 hnone, Option.map_eq_none_iff.1 hnone']
    · show ((t.detach id).withdraw id).getVariable? v = _
      rw [withdraw_of_live g.before]
      refine getVariable?_release_retain c.left ?_
      exact (htouched.spared v hv).trans ((h.touched.spared v hv).trans (hstored v))
  · exact (options_withdraw _ id).trans (htouched.options.trans (h.touched.options.trans hoptions))
  · exact (result_withdraw _ id).trans (htouched.result.trans (h.touched.result.trans hresult))

/-- Whatever is done to the one specification can be done to the other, under handles of other
generations.  It leads to the same, gets the same answers, and solves the same problems. -/
def GoesOnAs (w : Wear) (s u : Spec α) : Prop :=
  ∀ history : List (Operation α), (s.run history).Addressable →
    u.run (history.map (·.worn w)) = (s.run history).worn w ∧
    ∀ op : Operation α, ((s.run history).perform op).1.Addressable →
      ((u.run (history.map (·.worn w))).perform (op.worn w)).2
        = ((s.run history).perform op).2.worn w ∧
      ((u.run (history.map (·.worn w))).solvedBy? (op.worn w)).map Spec.problem
        = ((s.run history).solvedBy? op).map Spec.problem

theorem Reachable.goesOnAs_worn (hs : s.Reachable) (w : Wear) : GoesOnAs w s (s.worn w) := by
  intro history hroom
  have hrun := hs.run_worn (w := w) hroom
  have hreached := hs.run history hroom
  refine ⟨hrun, fun op hop => ?_⟩
  rw [hrun]
  refine ⟨?_, hreached.solvedBy?_worn hop⟩
  rw [perform_worn hreached.tidy_owned.1 hreached.mentionsLive hop]

/-- Two specifications that differ by generations only. -/
structure SameButGenerations (s u : Spec α) : Prop where
  /-- The variables are the same, with all their contents. -/
  variableList : u.variableList = s.variableList
  /-- The constraints are the same, with all their contents. -/
  constraintList : u.constraintList = s.constraintList
  options : u.options = s.options
  result : u.result = s.result
  /-- New variables take the same indices, in the same order. -/
  variableIndices : ∀ n, u.variableStore.cells.size ≤ n →
    (u.variableStore.upcoming n).map Slot.index = (s.variableStore.upcoming n).map Slot.index
  /-- New constraints take the same indices, in the same order. -/
  constraintIndices : ∀ n, u.constraintStore.cells.size ≤ n →
    (u.constraintStore.upcoming n).map Slot.index = (s.constraintStore.upcoming n).map Slot.index
  /-- All live handles resolve as before, and the future is the same. -/
  future : ∃ w : Wear, (∀ v, (s.getVariable? v).isSome = true → v.worn w = v) ∧
    (∀ k, (s.getConstraint? k).isSome = true → k.worn w = k) ∧ GoesOnAs w s u

/-- **Adding a constraint and removing it again is invisible to everything later.**  This holds for
every accepted addition that has handles enough. -/
theorem Reachable.removal_undoes_addition (hs : s.Reachable) {coefficients : List α}
    {ids : List VariableId} {relation : Relation} {right above below : α} {id : ConstraintId}
    {t : Spec α}
    (hadd : s.addConstraint coefficients ids relation right above below = .ok (id, t))
    (hroom : t.Addressable) :
    ∃ u, t.removeConstraint id = (true, u) ∧ s.SameButGenerations u := by
  obtain ⟨htidy, howned⟩ := hs.tidy_owned
  obtain ⟨left, hleft, hadd⟩ := bind_ok hadd
  obtain ⟨_, -, hadd⟩ := bind_ok hadd
  obtain ⟨_, -, hadd⟩ := bind_ok hadd
  obtain ⟨c, hc⟩ : ∃ c, c = Constraint.fresh left relation right above below .user := ⟨_, rfl⟩
  have hregister : s.register c = (id, t) := hc ▸ Except.ok.inj hadd
  have hmentioned : ∀ term ∈ c.left, s.isUserVariable term.var = true := by
    rw [hc]
    exact isUserVariable_of_mem_mergeSummands (summands_ok hleft)
  have hrole : c.role = .user := by rw [hc]; rfl
  have hrigid : c.elastic = none := by rw [hc]; rfl
  have hresumed : c.isSuspended = false := by rw [hc]; rfl
  have hroom' : (s.register c).2.Addressable := by rwa [hregister]
  have hturned : s.Turned (t.drop id) ∧ t.isUserConstraint id = true := by
    rw [isUserConstraint_iff]
    cases hsoft : c.isSoftInequality with
    | false =>
      have hplaced := (evolves_attach (s.place c).2 (s.place c).1).addressable hroom'
      obtain ⟨hsame, hturned⟩ := turned_of_rigid htidy hrigid hsoft hplaced
      obtain ⟨-, hregistry⟩ := registry_place htidy hplaced
      rw [← hsame, hregister] at hturned hregistry
      refine ⟨hturned, c, ?_, hrole⟩
      rw [← registry_constraint?, hregistry, Registry.constraint?_putConstraint, if_pos rfl]
    | true =>
      have hturned := turned_of_softInequality htidy howned hrole hrigid hresumed hmentioned hsoft
        hroom'
      obtain ⟨p, t', id', b, e, h⟩ := exists_elasticAddition htidy hrigid hsoft hroom'
      obtain ⟨rfl, rfl⟩ := Prod.mk.inj (hregister.symm.trans h.registered)
      rw [hregister] at hturned
      exact ⟨hturned, c.withSlack e, h.given.after, hrole⟩
  obtain ⟨hturned, hid⟩ := hturned
  obtain ⟨w, hvariables, hconstraints, hworn⟩ := hturned.exists_worn hs.orderly howned
  refine ⟨t.drop id, if_pos hid, hturned.variableList hs.1, hturned.constraintList hs.1,
    hturned.options, hturned.result, fun n => hturned.index_upcoming_variables,
    fun n => hturned.index_upcoming_constraints, w, fun v hv => ?_, fun k hk => ?_, ?_⟩
  · obtain ⟨x, hx⟩ := Option.isSome_iff_exists.1 hv
    exact hvariables v x hx
  · obtain ⟨d, hd⟩ := Option.isSome_iff_exists.1 hk
    exact hconstraints k d hd
  · rw [hworn]
    exact hs.goesOnAs_worn w

end RoundTrip

/-- After a soft constraint was removed and a hard one took its place, a soft `2x >= 30` takes two
vacant cells and a new one.  It is added and removed without a trace. -/
theorem removal_undoes_addition_of_scattered_soft_ge :
    let s : Spec Float := ({ options := .default } : Spec Float).run [.addVariable none,
      .addConstraint [1] [⟨⟨0, 0⟩⟩] .le 100 4 0, .addConstraint [1] [⟨⟨0, 0⟩⟩] .ge 10 0 0,
      .removeConstraint ⟨⟨0, 0⟩⟩, .addConstraint [1] [⟨⟨0, 0⟩⟩] .eq 7 0 0]
    s.Reachable ∧ s.constraintStore.free = [1, 2] ∧ s.variableStore.free = [1] ∧
      ∃ id t, s.addConstraint [2] [⟨⟨0, 0⟩⟩] .ge 30 1 2 = .ok (id, t) ∧ t.Addressable ∧
        t.constraintStore.cells.size = s.constraintStore.cells.size + 1 ∧
        ∃ u, t.removeConstraint id = (true, u) ∧ s.SameButGenerations u := by
  intro s
  have hs : s.Reachable := reachable_run _ (by decide +kernel)
  have hcheck : (match s.addConstraint [2] [⟨⟨0, 0⟩⟩] .ge 30 1 2 with
      | .ok (_, t) => decide (t.variableStore.cells.size ≤ UInt32.size ∧
        t.constraintStore.cells.size ≤ UInt32.size ∧
        t.constraintStore.cells.size = s.constraintStore.cells.size + 1)
      | .error _ => false) = true := by decide +kernel
  cases hadd : s.addConstraint [2] [⟨⟨0, 0⟩⟩] .ge 30 1 2 with
  | error reason =>
    rw [hadd] at hcheck
    exact absurd hcheck Bool.false_ne_true
  | ok added =>
    obtain ⟨id, t⟩ := added
    rw [hadd] at hcheck
    obtain ⟨hv, hc, hsize⟩ := of_decide_eq_true hcheck
    exact ⟨hs, by decide +kernel, by decide +kernel, id, t, rfl, ⟨hv, hc⟩, hsize,
      hs.removal_undoes_addition hadd ⟨hv, hc⟩⟩

end Spec

end ElasticLayout
