import ElasticLayout.Proofs.InternalParts
import ElasticLayout.Proofs.Relisting
import ElasticLayout.Proofs.References

/-!
# Problems do not see generations

Live variables differ by their indices, and so do live constraints.  Hence the problem of a
specification is told by its constraints with the generations of the mentioned variables forgotten,
listed by index.

* `Imprint`, `Constraint.imprint` -- a constraint without generations;
* `problemFrom`, `Spec.problem_eq_problemFrom` -- the problem made from imprints;
* `Spec.ImprintedIn` -- each constraint of the one leaves its imprint in the other, at its index;
* `Spec.problem_congr` -- the same imprints at the same indices make the same problem.
-/

namespace ElasticLayout

variable {α : Type}

/-! ### Imprints -/

/-- A constraint with its mentioned variables told by index. -/
structure Imprint (α : Type) where
  /-- Left side: factors, and indices of variables. -/
  left : List (α × UInt32)
  /-- Comparison of the two sides. -/
  relation : Relation
  /-- Right side. -/
  right : α
  /-- Penalty for a left side above the right side. -/
  penaltyAbove : α
  /-- Penalty for a left side below the right side. -/
  penaltyBelow : α

/-- The imprint of a constraint. -/
def Constraint.imprint (c : Constraint α) : Imprint α where
  left := c.left.map fun term => (term.coefficient, term.var.slot.index)
  relation := c.relation
  right := c.right
  penaltyAbove := c.penaltyAbove
  penaltyBelow := c.penaltyBelow

namespace Imprint

variable [Scalar α]

/-- The constraint is a term of the objective. -/
def isObjectiveTerm (m : Imprint α) : Bool :=
  (0 < m.penaltyAbove || 0 < m.penaltyBelow) && m.relation == .eq

/-- The coefficient of the variable at an index. -/
def coefficientAt (m : Imprint α) (i : UInt32) : α :=
  m.left.foldl (fun sum term => if term.2 = i then sum + term.1 else sum) 0

end Imprint

/-- The problem of imprints, with columns told by index. -/
def problemFrom [Scalar α] (indices : List UInt32) (ms : List (Imprint α)) : Problem α where
  variableCount := indices.length
  hard := (ms.filter (!·.isObjectiveTerm)).map fun m =>
    ⟨indices.map m.coefficientAt, m.relation, m.right⟩
  soft := (ms.filter (·.isObjectiveTerm)).map fun m =>
    ⟨indices.map m.coefficientAt, m.right, weightFor m.penaltyAbove m.penaltyBelow⟩

/-- Coefficients are found by index, as long as no other variable has the index. -/
theorem Constraint.coefficientAt_imprint [Scalar α] (c : Constraint α) {id : VariableId}
    (h : ∀ term ∈ c.left, term.var.slot.index = id.slot.index → term.var = id) :
    c.imprint.coefficientAt id.slot.index = c.coefficientOf id := by
  unfold Imprint.coefficientAt coefficientOf imprint
  dsimp only
  rw [List.foldl_map]
  refine List.foldl_ext _ _ _ fun sum term hterm => ?_
  refine if_congr ⟨h term hterm, fun hvar => ?_⟩ rfl rfl
  rw [hvar]

namespace Spec

/-! ### Live handles differ by index -/

theorem eq_of_live_of_index_eq {s : Spec α} {a b : VariableId}
    (ha : (s.getVariable? a).isSome = true) (hb : (s.getVariable? b).isSome = true)
    (hindex : a.slot.index = b.slot.index) : a = b := by
  by_contra hne
  have hnone : s.getVariable? b = none :=
    SlotStore.get?_eq_none_of_index_eq s.variableStore
      (fun heq => hne (VariableId.slot_inj.1 heq)) hindex ha
  rw [hnone] at hb
  exact absurd hb (by simp)

variable [Scalar α]

/-- A column is a live variable. -/
theorem isSome_of_mem_columns {s : Spec α} (howned : s.registry.Owned none) (hs : s.Addressable)
    {id : VariableId} (h : id ∈ s.columns) : (s.getVariable? id).isSome = true := by
  obtain ⟨c, hc, term, hterm, rfl⟩ := mem_columns.1 h
  obtain ⟨k, hk⟩ := (mem_participants howned hs).1 hc
  exact isSome_of_mentioned howned hk hterm

/-! ### The problem -/

/-- **The problem is made from the imprints of the participants.** -/
theorem problem_eq_problemFrom {s : Spec α} (howned : s.registry.Owned none)
    (hs : s.Addressable) : s.problem
      = problemFrom (s.columns.map (·.slot.index)) (s.participants.map (·.imprint)) := by
  have hrow : ∀ c ∈ s.participants, s.columns.map c.coefficientOf
      = (s.columns.map (·.slot.index)).map c.imprint.coefficientAt := by
    intro c hc
    rw [List.map_map]
    refine List.map_congr_left fun id hid => ?_
    obtain ⟨k, hk⟩ := (mem_participants howned hs).1 hc
    exact (c.coefficientAt_imprint fun term hterm hindex => eq_of_live_of_index_eq
      (isSome_of_mentioned howned hk hterm) (isSome_of_mem_columns howned hs hid) hindex).symm
  unfold problem problemFrom
  dsimp only
  congr 1
  · rw [List.length_map]
  · rw [List.filter_map, List.map_map]
    refine List.map_congr_left fun c hc => ?_
    rw [hrow c (List.mem_filter.1 hc).1]
    rfl
  · rw [List.filter_map, List.map_map]
    refine List.map_congr_left fun c hc => ?_
    rw [hrow c (List.mem_filter.1 hc).1]
    rfl

omit [Scalar α] in
/-- The indices of the columns are those that the imprints mention. -/
theorem mem_map_index_columns {s : Spec α} {i : UInt32} :
    i ∈ s.columns.map (·.slot.index) ↔
      ∃ m ∈ s.participants.map (·.imprint), ∃ term ∈ m.left, term.2 = i := by
  constructor
  · intro h
    obtain ⟨id, hid, rfl⟩ := List.mem_map.1 h
    obtain ⟨c, hc, term, hterm, rfl⟩ := mem_columns.1 hid
    exact ⟨c.imprint, List.mem_map_of_mem hc, _, List.mem_map_of_mem hterm, rfl⟩
  · rintro ⟨m, hm, t, ht, rfl⟩
    obtain ⟨c, hc, rfl⟩ := List.mem_map.1 hm
    obtain ⟨term, hterm, rfl⟩ := List.mem_map.1 ht
    exact List.mem_map.2 ⟨term.var, mem_columns.2 ⟨c, hc, term, hterm, rfl⟩, rfl⟩

/-- The columns ascend by index. -/
theorem pairwise_index_columns {s : Spec α} (howned : s.registry.Owned none)
    (hs : s.Addressable) : (s.columns.map (·.slot.index)).Pairwise (· < ·) := by
  rw [List.pairwise_map]
  refine s.columns_pairwise.imp_of_mem fun {a b} ha hb hab => ?_
  rcases Slot.precedes_iff.1 hab with hlt | ⟨heq, -⟩
  · exact hlt
  · have hsame : a = b := eq_of_live_of_index_eq (isSome_of_mem_columns howned hs ha)
      (isSome_of_mem_columns howned hs hb) heq
    rw [hsame] at hab
    exact absurd hab (Slot.precedes_irrefl b.slot)

/-! ### The same imprints at the same indices -/

/-- Each constraint of the one leaves its imprint in the other, at its index. -/
def ImprintedIn (s u : Spec α) : Prop :=
  ∀ k c, s.getConstraint? k = some c → ∃ k' c', u.getConstraint? k' = some c' ∧
    k'.slot.index = k.slot.index ∧ c'.imprint = c.imprint

omit [Scalar α] in
/-- The imprints by index are the same. -/
theorem map_imprint_constraintList {s u : Spec α} (hs : s.Addressable) (hu : u.Addressable)
    (h : s.ImprintedIn u) (h' : u.ImprintedIn s) :
    u.constraintList.map (fun p => (p.1.slot.index, p.2.imprint))
      = s.constraintList.map fun p => (p.1.slot.index, p.2.imprint) := by
  have hascending : ∀ t : Spec α, t.Addressable →
      (t.constraintList.map fun p => (p.1.slot.index, p.2.imprint)).Pairwise
        fun a b => a.1 < b.1 := by
    intro t ht
    unfold constraintList
    rw [List.pairwise_map, List.pairwise_map]
    exact SlotStore.toList_pairwise ht.2
  have hmem : ∀ s u : Spec α, s.Addressable → u.Addressable → s.ImprintedIn u →
      ∀ x, x ∈ s.constraintList.map (fun p => (p.1.slot.index, p.2.imprint)) →
        x ∈ u.constraintList.map fun p => (p.1.slot.index, p.2.imprint) := by
    intro s u hs hu h x hx
    obtain ⟨⟨k, c⟩, hkc, rfl⟩ := List.mem_map.1 hx
    obtain ⟨k', c', hk', hindex, himprint⟩ := h k c ((mem_constraintList hs).1 hkc)
    exact List.mem_map.2 ⟨(k', c'), (mem_constraintList hu).2 hk', Prod.ext hindex himprint⟩
  have hirrefl : Std.Irrefl fun a b : UInt32 × Imprint α => a.1 < b.1 :=
    ⟨fun a => UInt32.lt_irrefl a.1⟩
  have hantisymm : Std.Antisymm fun a b : UInt32 × Imprint α => a.1 < b.1 :=
    ⟨fun a b hab hba => absurd (UInt32.lt_trans hab hba) (UInt32.lt_irrefl a.1)⟩
  exact (hascending u hu).eq_of_mem_iff (hascending s hs)
    fun x => ⟨hmem u s hu hs h' x, hmem s u hs hu h x⟩

/-- **The same imprints make the same problem**, over columns with the same indices. -/
theorem problem_congr {s u : Spec α} (hs : s.Addressable) (hu : u.Addressable)
    (howned : s.registry.Owned none) (howned' : u.registry.Owned none) (h : s.ImprintedIn u)
    (h' : u.ImprintedIn s) :
    u.problem = s.problem ∧ u.columns.map (·.slot.index) = s.columns.map (·.slot.index) := by
  have himprints : u.participants.map (·.imprint) = s.participants.map (·.imprint) := by
    rw [participants_eq howned' hu, participants_eq howned hs, List.map_map, List.map_map]
    have hlists := congrArg (List.map Prod.snd) (map_imprint_constraintList hs hu h h')
    rwa [List.map_map, List.map_map] at hlists
  have hcolumns : u.columns.map (·.slot.index) = s.columns.map (·.slot.index) := by
    refine (pairwise_index_columns howned' hu).eq_of_mem_iff (pairwise_index_columns howned hs)
      fun i => ?_
    rw [mem_map_index_columns, mem_map_index_columns, himprints]
  refine ⟨?_, hcolumns⟩
  rw [problem_eq_problemFrom howned' hu, problem_eq_problemFrom howned hs, hcolumns, himprints]

end Spec

end ElasticLayout
