import Mathlib
import ElasticLayout.Spec.Basic

/-!
# Merged left sides

Merging a left side leaves one summand for each variable, where the variable is first mentioned, and
adds up the coefficients from left to right.

* `map_var_mergeSummands` -- the variables of a merged left side;
* `mem_mergeSummands`, `mergeSummands_nodup` -- hence none is new, and none is named twice;
* `mergeSummands_pairwise` -- they stand in the order in which they are first mentioned;
* `mergeSummands_of_nodup`, `mergeSummands_mergeSummands` -- a merged left side is not changed by
  merging;
* `MergerOf` -- what it means to be merged, with the coefficients;
* `mergerOf_mergeSummands`, `mergerOf_iff` -- the result of merging is merged, and nothing else is.
-/

namespace ElasticLayout

variable {α : Type}

/-- A list of summands is told by its coefficients and its variables. -/
theorem zipWith_map_summand (terms : List (Summand α)) :
    List.zipWith Summand.mk (terms.map (·.coefficient)) (terms.map (·.var)) = terms := by
  rw [List.zipWith_map, List.zipWith_self]
  exact List.map_id terms

variable [Add α] {term s : Summand α} {merged merged' terms : List (Summand α)}

/-! ### One summand -/

theorem map_var_addSummand (term : Summand α) (merged : List (Summand α)) :
    (addSummand term merged).map (·.var) = if term.var ∈ merged.map (·.var)
      then merged.map (·.var) else merged.map (·.var) ++ [term.var] := by
  induction merged with
  | nil => rfl
  | cons first rest ih =>
    unfold addSummand
    by_cases hfirst : first.var = term.var
    · simp [hfirst]
    · rw [if_neg hfirst, List.map_cons, ih]
      simp only [List.map_cons, List.mem_cons, Ne.symm hfirst, false_or]
      split <;> rfl

theorem addSummand_of_not_mem (h : term.var ∉ merged.map (·.var)) :
    addSummand term merged = merged ++ [term] := by
  induction merged with
  | nil => rfl
  | cons first rest ih =>
    rw [List.map_cons, List.mem_cons, not_or] at h
    unfold addSummand
    rw [if_neg (Ne.symm h.1), ih h.2]
    rfl

/-- A summand is one of another variable, one that has taken up the new one, or the new one. -/
theorem mem_addSummand (hnodup : (merged.map (·.var)).Nodup) (h : s ∈ addSummand term merged) :
    s ∈ merged ∧ s.var ≠ term.var ∨
    (∃ old ∈ merged, old.var = term.var ∧
      s = { old with coefficient := old.coefficient + term.coefficient }) ∨
    s = term ∧ term.var ∉ merged.map (·.var) := by
  induction merged with
  | nil => exact .inr (.inr ⟨List.mem_singleton.1 h, List.not_mem_nil⟩)
  | cons first rest ih =>
    rw [List.map_cons, List.nodup_cons] at hnodup
    unfold addSummand at h
    split at h
    · rename_i hfirst
      obtain rfl | hrest := List.mem_cons.1 h
      · exact .inr (.inl ⟨first, List.mem_cons_self, hfirst, rfl⟩)
      · refine .inl ⟨List.mem_cons_of_mem _ hrest, fun hvar => hnodup.1 ?_⟩
        rw [hfirst, ← hvar]
        exact List.mem_map_of_mem hrest
    · rename_i hfirst
      obtain rfl | hrest := List.mem_cons.1 h
      · exact .inl ⟨List.mem_cons_self, hfirst⟩
      · obtain ⟨hs, hvar⟩ | ⟨old, hold, hvar, rfl⟩ | ⟨rfl, hnew⟩ := ih hnodup.2 hrest
        · exact .inl ⟨List.mem_cons_of_mem _ hs, hvar⟩
        · exact .inr (.inl ⟨old, List.mem_cons_of_mem _ hold, hvar, rfl⟩)
        · refine .inr (.inr ⟨rfl, ?_⟩)
          rw [List.map_cons, List.mem_cons, not_or]
          exact ⟨Ne.symm hfirst, hnew⟩

/-! ### All summands -/

theorem mergeSummands_concat (terms : List (Summand α)) (term : Summand α) :
    mergeSummands (terms ++ [term]) = addSummand term (mergeSummands terms) :=
  List.foldl_concat ..

/-- The variables of a merged left side, in the order in which they are first mentioned. -/
theorem map_var_mergeSummands (terms : List (Summand α)) :
    (mergeSummands terms).map (·.var) = (terms.map (·.var)).eraseDups := by
  induction terms using List.reverseRecOn with
  | nil => rfl
  | append_singleton terms term ih =>
    rw [mergeSummands_concat, map_var_addSummand, ih, List.map_append, List.eraseDups_append,
      List.map_singleton, List.cons_removeAll, List.nil_removeAll]
    simp only [List.mem_eraseDups, List.contains_eq_mem, decide_eq_false_iff_not]
    split
    · rw [List.eraseDups_nil, List.append_nil]
    · rfl

theorem mem_map_var_mergeSummands {id : VariableId} :
    id ∈ (mergeSummands terms).map (·.var) ↔ id ∈ terms.map (·.var) := by
  rw [map_var_mergeSummands, List.mem_eraseDups]

/-- A merged left side mentions no variable that was not mentioned. -/
theorem mem_mergeSummands (h : s ∈ mergeSummands terms) : ∃ term ∈ terms, s.var = term.var := by
  have hvar := mem_map_var_mergeSummands.1 (List.mem_map_of_mem h)
  obtain ⟨term, hterm, heq⟩ := List.mem_map.1 hvar
  exact ⟨term, hterm, heq.symm⟩

/-- Merged left sides name a variable once. -/
theorem mergeSummands_nodup (terms : List (Summand α)) :
    ((mergeSummands terms).map (·.var)).Nodup := by
  induction terms using List.reverseRecOn with
  | nil => exact List.nodup_nil
  | append_singleton terms term ih =>
    rw [mergeSummands_concat, map_var_addSummand]
    split
    · exact ih
    · rename_i hnew
      have hconcat := ih.concat hnew
      rwa [List.concat_eq_append] at hconcat

/-- The summands of a merged left side stand in the order in which their variables are first
mentioned. -/
theorem mergeSummands_pairwise (terms : List (Summand α)) :
    ((mergeSummands terms).map (·.var)).Pairwise fun u v =>
      (terms.map (·.var)).idxOf u < (terms.map (·.var)).idxOf v := by
  induction terms using List.reverseRecOn with
  | nil => exact .nil
  | append_singleton terms term ih =>
    rw [mergeSummands_concat, map_var_addSummand, List.map_append, List.map_singleton]
    -- The place of a variable in the terms so far stays, and lies before that of the new term.
    have hplace : ∀ u ∈ (mergeSummands terms).map (·.var),
        (terms.map (·.var) ++ [term.var]).idxOf u = (terms.map (·.var)).idxOf u ∧
          (terms.map (·.var)).idxOf u < (terms.map (·.var)).length := by
      intro u hu
      rw [mem_map_var_mergeSummands] at hu
      exact ⟨List.idxOf_append_of_mem hu, List.idxOf_lt_length_of_mem hu⟩
    have hold : ((mergeSummands terms).map (·.var)).Pairwise fun u v =>
        (terms.map (·.var) ++ [term.var]).idxOf u < (terms.map (·.var) ++ [term.var]).idxOf v := by
      refine ih.imp_of_mem fun {u v} hu hv hlt => ?_
      rwa [(hplace u hu).1, (hplace v hv).1]
    split
    · exact hold
    · rename_i hnew
      rw [mem_map_var_mergeSummands] at hnew
      refine List.pairwise_append.2 ⟨hold, List.pairwise_singleton .., fun u hu v hv => ?_⟩
      obtain rfl := List.mem_singleton.1 hv
      rw [(hplace u hu).1, List.idxOf_append_of_notMem hnew]
      exact (hplace u hu).2.trans_le (Nat.le_add_right ..)

/-- A left side that names each variable once is merged already. -/
theorem mergeSummands_of_nodup (h : (terms.map (·.var)).Nodup) : mergeSummands terms = terms := by
  induction terms using List.reverseRecOn with
  | nil => rfl
  | append_singleton terms term ih =>
    rw [List.map_append, List.nodup_append] at h
    have hnew : term.var ∉ terms.map (·.var) := fun hmem =>
      h.2.2 _ hmem _ (List.mem_singleton_self _) rfl
    rw [mergeSummands_concat, ih h.1, addSummand_of_not_mem hnew]

/-- **Merging twice is merging once.** -/
theorem mergeSummands_mergeSummands (terms : List (Summand α)) :
    mergeSummands (mergeSummands terms) = mergeSummands terms :=
  mergeSummands_of_nodup (mergeSummands_nodup terms)

/-- Every variable of the terms has one summand, at the place of its first mention, with the sum of
its coefficients from left to right. -/
structure MergerOf (terms merged : List (Summand α)) : Prop where
  vars : merged.map (·.var) = (terms.map (·.var)).eraseDups
  coefficient : ∀ s ∈ merged, ∃ x xs,
    (terms.filter (·.var = s.var)).map (·.coefficient) = x :: xs ∧
      s.coefficient = xs.foldl (· + ·) x

/-- **Merging adds up** the coefficients of each variable. -/
theorem mergerOf_mergeSummands (terms : List (Summand α)) :
    MergerOf terms (mergeSummands terms) := by
  refine ⟨map_var_mergeSummands terms, ?_⟩
  induction terms using List.reverseRecOn with
  | nil => exact fun s hs => absurd hs List.not_mem_nil
  | append_singleton terms term ih =>
    intro s hs
    rw [mergeSummands_concat] at hs
    rw [List.filter_append, List.map_append]
    obtain ⟨hold, hvar⟩ | ⟨old, hold, hvar, rfl⟩ | ⟨rfl, hnew⟩ :=
      mem_addSummand (mergeSummands_nodup terms) hs
    · obtain ⟨x, xs, hcoefficients, hsum⟩ := ih s hold
      refine ⟨x, xs, ?_, hsum⟩
      rw [hcoefficients, List.filter_singleton, decide_eq_false (Ne.symm hvar)]
      exact List.append_nil _
    · obtain ⟨x, xs, hcoefficients, hsum⟩ := ih old hold
      refine ⟨x, xs ++ [term.coefficient], ?_, ?_⟩
      · rw [hcoefficients, List.filter_singleton, decide_eq_true hvar.symm]
        rfl
      · rw [List.foldl_concat, ← hsum]
    · refine ⟨s.coefficient, [], ?_, rfl⟩
      have hnone : terms.filter (·.var = s.var) = [] := by
        rw [mem_map_var_mergeSummands, List.mem_map] at hnew
        refine List.filter_eq_nil_iff.2 fun t ht hvar => hnew ⟨t, ht, of_decide_eq_true hvar⟩
      rw [hnone, List.filter_singleton, decide_eq_true rfl]
      rfl

/-- Two left sides merged from the same terms are the same. -/
theorem MergerOf.unique (h : MergerOf terms merged) (h' : MergerOf terms merged') :
    merged = merged' := by
  have hvars : merged.map (·.var) = merged'.map (·.var) := h.vars.trans h'.vars.symm
  refine List.ext_getElem (by simpa using congrArg List.length hvars) fun i hi hi' => ?_
  have hvar : merged[i].var = merged'[i].var := by
    simpa [hi, hi'] using congrArg (·[i]?) hvars
  obtain ⟨x, xs, hcoefficients, hsum⟩ := h.coefficient _ (List.getElem_mem hi)
  obtain ⟨y, ys, hcoefficients', hsum'⟩ := h'.coefficient _ (List.getElem_mem hi')
  rw [hvar, hcoefficients'] at hcoefficients
  obtain ⟨rfl, rfl⟩ := List.cons.inj hcoefficients
  calc merged[i] = ⟨merged[i].coefficient, merged[i].var⟩ := rfl
    _ = ⟨merged'[i].coefficient, merged'[i].var⟩ := by rw [hsum, hsum', hvar]
    _ = merged'[i] := rfl

/-- **Merging is told by its result.** -/
theorem mergerOf_iff : MergerOf terms merged ↔ merged = mergeSummands terms := by
  constructor
  · exact fun h => h.unique (mergerOf_mergeSummands terms)
  · rintro rfl
    exact mergerOf_mergeSummands terms

end ElasticLayout
