import ElasticLayout.Proofs.Generations

/-!
# Slot stores against finite maps

A caller of a slot store sees handles and values only.  Whatever it calls, the replies are those of
a finite map that gives a handle of its own to each entry, as long as no cell is vacated so often
that its generations come round.

* `SlotStore.Call`, `SlotStore.Reply`, `SlotStore.trace` -- what passes between caller and store;
* `HandleMap` -- the map, and the handles it has given out; `Allows`, `after`, `Admits` say which
  replies it may give;
* `SlotStore.Follows.perform`, `SlotStore.Follows.run` -- a store follows the map, call by call and
  through a run;
* `SlotStore.acts_as_map` -- the store acts as the map.
-/

namespace ElasticLayout

variable {α : Type}

/-! ### Calls and replies -/

namespace SlotStore

/-- What a caller can ask of a store. -/
inductive Call (α : Type) where
  /-- Store an entry. -/
  | insert (value : α)
  /-- Replace the entry behind a handle. -/
  | replace (slot : Slot) (value : α)
  /-- Remove the entry behind a handle. -/
  | erase (slot : Slot)
  /-- Look up a handle. -/
  | find (slot : Slot)
  /-- Whether a handle resolves. -/
  | contains (slot : Slot)
  /-- How many entries there are. -/
  | size
  /-- List the entries. -/
  | toList

/-- What a store answers. -/
inductive Reply (α : Type) where
  /-- The handle of a new entry. -/
  | handle (slot : Slot)
  /-- The entry behind a handle, before the call. -/
  | entry (value? : Option α)
  /-- Whether a handle resolves. -/
  | verdict (live : Bool)
  /-- The number of entries. -/
  | count (entries : Nat)
  /-- The entries. -/
  | listing (entries : List (Slot × α))

/-- Carry out a call. -/
def perform (s : SlotStore α) : Call α → SlotStore α × Reply α
  | .insert value => ((s.insert value).2, .handle (s.insert value).1)
  | .replace slot value => (s.modify slot fun _ => value, .entry (s.get? slot))
  | .erase slot => (s.erase slot, .entry (s.get? slot))
  | .find slot => (s, .entry (s.get? slot))
  | .contains slot => (s, .verdict (s.contains slot))
  | .size => (s, .count s.size)
  | .toList => (s, .listing s.toList)

/-- The store after some calls. -/
def run (s : SlotStore α) (calls : List (Call α)) : SlotStore α :=
  calls.foldl (fun s call => (s.perform call).1) s

/-- The calls with the replies to them. -/
def trace (s : SlotStore α) : List (Call α) → List (Call α × Reply α)
  | [] => []
  | call :: calls => (call, (s.perform call).2) :: trace (s.perform call).1 calls

/-- The call removed an entry at this index. -/
def removes (i : UInt32) : Call α × Reply α → Bool
  | (.erase slot, .entry (some _)) => slot.index == i
  | _ => false

/-- How often an entry was removed at an index. -/
def removals (past : List (Call α × Reply α)) (i : UInt32) : Nat := past.countP (removes i)

end SlotStore

open SlotStore (Call Reply)

/-! ### Maps behind handles -/

/-- A map from handles to values, together with the handles it has given out. -/
structure HandleMap (α : Type) where
  /-- The value behind a handle. -/
  find? : Slot → Option α := fun _ => none
  /-- The handles given out so far, the latest first. -/
  issued : List Slot := []

namespace HandleMap

/-- The reply is one that the map may give.  It chooses the handles itself, but none twice. -/
def Allows (m : HandleMap α) : Call α → Reply α → Prop
  | .insert _, .handle slot => slot ∉ m.issued
  | .replace slot _, .entry value? => value? = m.find? slot
  | .erase slot, .entry value? => value? = m.find? slot
  | .find slot, .entry value? => value? = m.find? slot
  | .contains slot, .verdict live => live = (m.find? slot).isSome
  | .size, .count n => (n : ℕ∞) = {slot | (m.find? slot).isSome = true}.encard
  | .toList, .listing entries =>
    (∀ slot value, (slot, value) ∈ entries ↔ m.find? slot = some value) ∧
      entries.Pairwise fun a b => a.1.index < b.1.index
  | _, _ => False

/-- The map after a call with its reply: only what is behind the handle in question changes. -/
def after (m : HandleMap α) : Call α → Reply α → HandleMap α
  | .insert value, .handle slot =>
    ⟨Function.update m.find? slot (some value), slot :: m.issued⟩
  | .replace slot value, _ =>
    { m with find? := Function.update m.find? slot ((m.find? slot).map fun _ => value) }
  | .erase slot, _ => { m with find? := Function.update m.find? slot none }
  | _, _ => m

/-- The map may answer the calls in this way. -/
def Admits (m : HandleMap α) : List (Call α × Reply α) → Prop
  | [] => True
  | (call, reply) :: rest => m.Allows call reply ∧ (m.after call reply).Admits rest

/-- The map after some calls with their replies. -/
def replay (m : HandleMap α) (past : List (Call α × Reply α)) : HandleMap α :=
  past.foldl (fun m entry => m.after entry.1 entry.2) m

theorem replay_append (m : HandleMap α) (earlier later : List (Call α × Reply α)) :
    m.replay (earlier ++ later) = (m.replay earlier).replay later := List.foldl_append

theorem admits_append {earlier later : List (Call α × Reply α)} : ∀ {m : HandleMap α},
    m.Admits (earlier ++ later) ↔ m.Admits earlier ∧ (m.replay earlier).Admits later := by
  induction earlier with
  | nil => exact fun {m} => (iff_of_eq (true_and _)).symm
  | cons entry rest ih =>
    intro m
    show m.Allows _ _ ∧ (m.after _ _).Admits (rest ++ later) ↔
      (m.Allows _ _ ∧ (m.after _ _).Admits rest) ∧ ((m.after _ _).replay rest).Admits later
    rw [ih, and_assoc]

/-- A call gives out at most one handle, and a new one. -/
theorem issued_after (m : HandleMap α) {call : Call α} {reply : Reply α}
    (h : m.Allows call reply) :
    (m.after call reply).issued = m.issued ∨
      ∃ slot value, call = .insert value ∧ reply = .handle slot ∧ slot ∉ m.issued ∧
        (m.after call reply).issued = slot :: m.issued := by
  cases call with
  | insert value =>
    cases reply with
    | handle slot => exact .inr ⟨slot, value, rfl, rfl, h, rfl⟩
    | _ => exact h.elim
  | _ => exact .inl rfl

theorem nodup_issued_replay (past : List (Call α × Reply α)) :
    ∀ m : HandleMap α, m.Admits past → m.issued.Nodup → (m.replay past).issued.Nodup := by
  induction past with
  | nil => exact fun m _ h => h
  | cons entry rest ih =>
    intro m hadmits h
    refine ih _ hadmits.2 ?_
    rcases m.issued_after hadmits.1 with hsame | ⟨slot, -, -, -, hnew, hcons⟩
    · rwa [hsame]
    · rw [hcons]
      exact List.nodup_cons.2 ⟨hnew, h⟩

/-- A call does not bring a removed handle back. -/
theorem stale_after {m : HandleMap α} {call : Call α} {reply : Reply α} {slot : Slot}
    (h : m.Allows call reply) (hissued : slot ∈ m.issued) (hstale : m.find? slot = none) :
    slot ∈ (m.after call reply).issued ∧ (m.after call reply).find? slot = none := by
  cases call with
  | insert value =>
    cases reply with
    | handle fresh =>
      have hne : slot ≠ fresh := fun heq => h (heq ▸ hissued)
      exact ⟨List.mem_cons_of_mem _ hissued, (Function.update_of_ne hne _ _).trans hstale⟩
    | _ => exact h.elim
  | replace other value =>
    refine ⟨hissued, ?_⟩
    show Function.update m.find? other _ slot = none
    by_cases heq : slot = other
    · rw [heq, Function.update_self, ← heq, hstale]
      rfl
    · rw [Function.update_of_ne heq, hstale]
  | erase other =>
    refine ⟨hissued, ?_⟩
    show Function.update m.find? other none slot = none
    by_cases heq : slot = other
    · rw [heq, Function.update_self]
    · rw [Function.update_of_ne heq, hstale]
  | _ => exact ⟨hissued, hstale⟩

theorem stale_replay {slot : Slot} (past : List (Call α × Reply α)) :
    ∀ m : HandleMap α, m.Admits past → slot ∈ m.issued → m.find? slot = none →
      (m.replay past).find? slot = none := by
  induction past with
  | nil => exact fun m _ _ h => h
  | cons entry rest ih =>
    intro m hadmits hissued hstale
    obtain ⟨hissued, hstale⟩ := stale_after hadmits.1 hissued hstale
    exact ih _ hadmits.2 hissued hstale

end HandleMap

namespace SlotStore

/-! ### A store and its map -/

/-- A store resolves the handles that the map resolves, and the handles that the map gave out are
spent. -/
structure Follows (s : SlotStore α) (m : HandleMap α) : Prop where
  /-- The stack of vacant indices lists vacant cells, each once, and the entries are counted
  right. -/
  tidy : s.Tidy
  /-- The stack lists all vacant cells. -/
  listsVacant : s.ListsVacant
  /-- Handles resolve alike. -/
  find : s.get? = m.find?
  /-- What was given out is spent. -/
  spent : ∀ k ∈ m.issued, s.Spent k

theorem follows_empty : Follows ({} : SlotStore α) {} where
  tidy := tidy_empty
  listsVacant := fun i g hi => absurd hi (by simp)
  find := rfl
  spent := fun k hk => absurd hk List.not_mem_nil

namespace Follows

variable {s : SlotStore α} {m : HandleMap α}

theorem insert (h : s.Follows m) {value : α} (hroom : (s.insert value).2.Addressable) :
    m.Allows (.insert value) (.handle (s.insert value).1) ∧
      (s.insert value).2.Follows (m.after (.insert value) (.handle (s.insert value).1)) := by
  obtain ⟨htidy, hvacant, hfind, hspent⟩ := h
  refine ⟨fun hissued => not_spent_insert htidy hroom (hspent _ hissued), htidy.insert value,
    hvacant.insert htidy value, ?_, ?_⟩
  · rw [insert_get? htidy hroom, hfind]
    rfl
  · intro k hk
    rcases List.mem_cons.1 hk with rfl | hk
    · -- The new handle is live.
      have hlive : (s.insert value).2.get? (s.insert value).1 = some value := by
        rw [insert_get? htidy hroom, Function.update_self]
      exact ⟨_, (get?_eq_some_iff _ _ value).1 hlive, .inr ⟨value, rfl⟩⟩
    · exact (hspent k hk).insert htidy value

theorem replace (h : s.Follows m) (slot : Slot) (value : α) :
    m.Allows (.replace slot value) (.entry (s.get? slot)) ∧
      (s.modify slot fun _ => value).Follows
        (m.after (.replace slot value) (.entry (s.get? slot))) := by
  obtain ⟨htidy, hvacant, hfind, hspent⟩ := h
  refine ⟨congrFun hfind slot, htidy.modify slot _, hvacant.modify slot _, ?_,
    fun k hk => (hspent k hk).modify slot _⟩
  rw [modify_get?, hfind]
  rfl

theorem erase (h : s.Follows m) {slot : Slot}
    (hround : s.contains slot = true → slot.generation.toNat + 1 < UInt32.size) :
    m.Allows (.erase slot) (.entry (s.get? slot)) ∧
      (s.erase slot).Follows (m.after (.erase slot) (.entry (s.get? slot))) := by
  obtain ⟨htidy, hvacant, hfind, hspent⟩ := h
  refine ⟨congrFun hfind slot, htidy.erase slot, hvacant.erase slot, ?_,
    fun k hk => (hspent k hk).erase hround⟩
  rw [erase_get?, hfind]
  rfl

theorem size (h : s.Follows m) (hroom : s.Addressable) :
    m.Allows .size (.count s.size) := by
  show (s.size : ℕ∞) = {slot | (m.find? slot).isSome = true}.encard
  rw [size_eq_encard h.tidy hroom, h.find]

theorem toList (h : s.Follows m) (hroom : s.Addressable) :
    m.Allows .toList (.listing s.toList) := by
  refine ⟨fun slot value => ?_, toList_pairwise hroom⟩
  rw [mem_toList hroom, h.find]

/-- **A store follows its map, call by call.** -/
theorem perform (h : s.Follows m) {call : Call α} (hroom : (s.perform call).1.Addressable)
    (hround : ∀ slot, call = .erase slot → s.contains slot = true →
      slot.generation.toNat + 1 < UInt32.size) :
    m.Allows call (s.perform call).2 ∧
      (s.perform call).1.Follows (m.after call (s.perform call).2) := by
  cases call with
  | insert value => exact h.insert hroom
  | replace slot value => exact h.replace slot value
  | erase slot => exact h.erase (hround slot rfl)
  | find slot => exact ⟨congrFun h.find slot, h⟩
  | contains slot => exact ⟨congrArg Option.isSome (congrFun h.find slot), h⟩
  | size => exact ⟨h.size hroom, h⟩
  | toList => exact ⟨h.toList hroom, h⟩

end Follows

/-! ### Runs -/

theorem cells_size_le_perform (s : SlotStore α) (call : Call α) :
    s.cells.size ≤ (s.perform call).1.cells.size := by
  cases call with
  | insert value => exact s.cells_size_le_insert value
  | replace slot value => exact (s.cells_size_modify slot _).ge
  | erase slot => exact (s.cells_size_erase slot).ge
  | _ => exact le_rfl

theorem cells_size_le_run (calls : List (Call α)) :
    ∀ s : SlotStore α, s.cells.size ≤ (s.run calls).cells.size := by
  induction calls with
  | nil => exact fun s => le_rfl
  | cons call rest ih => exact fun s => (s.cells_size_le_perform call).trans (ih _)

theorem trace_append (earlier later : List (Call α)) :
    ∀ s : SlotStore α,
      s.trace (earlier ++ later) = s.trace earlier ++ (s.run earlier).trace later := by
  induction earlier with
  | nil => exact fun s => rfl
  | cons call rest ih => exact fun s => congrArg _ (ih _)

/-- No cell is vacated so often in these calls that its generations come round. -/
def Unworn (s : SlotStore α) (calls : List (Call α)) : Prop :=
  ∀ i, (s.vacancy i).generation.toNat + removals (s.trace calls) i < UInt32.size

/-- A removal counts for its index. -/
theorem removals_erase {s : SlotStore α} {slot : Slot} {value : α} (hget : s.get? slot = some value)
    (rest : List (Call α)) : removals (s.trace (.erase slot :: rest)) slot.index
      = removals ((s.erase slot).trace rest) slot.index + 1 := by
  refine List.countP_cons_of_pos ?_
  show removes slot.index (.erase slot, .entry (s.get? slot)) = true
  rw [hget]
  exact beq_self_eq_true slot.index

/-- A removal has a next generation to move on to. -/
theorem Unworn.erase {s : SlotStore α} {slot : Slot} {rest : List (Call α)}
    (h : s.Unworn (.erase slot :: rest)) (hlive : s.contains slot = true) :
    slot.generation.toNat + 1 < UInt32.size := by
  obtain ⟨value, hget⟩ := Option.isSome_iff_exists.1 hlive
  have hbound := h slot.index
  rw [vacancy_of_get? hget, removals_erase hget] at hbound
  omega

/-- What a removal takes from the calls it adds to the generation. -/
theorem Unworn.tail {s : SlotStore α} (hs : s.Tidy) {call : Call α} {rest : List (Call α)}
    (h : s.Unworn (call :: rest)) : (s.perform call).1.Unworn rest := by
  intro i
  have hbound := h i
  have hmore : removals ((s.perform call).1.trace rest) i
      ≤ removals (s.trace (call :: rest)) i := List.Sublist.countP_le (List.sublist_cons_self ..)
  have hstay : (s.perform call).1.vacancy i = s.vacancy i →
      ((s.perform call).1.vacancy i).generation.toNat
        + removals ((s.perform call).1.trace rest) i < UInt32.size := by
    intro hsame
    rw [hsame]
    omega
  cases call with
  | insert value => exact hstay (vacancy_insert hs value i)
  | replace slot value => exact hstay (s.vacancy_modify slot _ i)
  | erase slot =>
    cases hget : s.get? slot with
    | none =>
      refine hstay ?_
      show (s.erase slot).vacancy i = s.vacancy i
      unfold SlotStore.erase
      rw [if_neg (by simp [contains, hget])]
    | some value =>
      by_cases hindex : i = slot.index
      · have hround := h.erase (Option.isSome_iff_exists.2 ⟨value, hget⟩)
        have hvacancy : ((s.erase slot).vacancy slot.index).generation.toNat
            = slot.generation.toNat + 1 := by
          rw [vacancy_erase hget, if_pos rfl]
          show (slot.generation + 1).toNat = slot.generation.toNat + 1
          rw [UInt32.toNat_add, show (1 : UInt32).toNat = 1 from rfl, Nat.mod_eq_of_lt hround]
        rw [hindex, vacancy_of_get? hget, removals_erase hget] at hbound
        rw [hindex]
        show ((s.erase slot).vacancy slot.index).generation.toNat
          + removals ((s.erase slot).trace rest) slot.index < UInt32.size
        rw [hvacancy]
        omega
      · refine hstay ?_
        show (s.erase slot).vacancy i = s.vacancy i
        rw [vacancy_erase hget, if_neg hindex]
  | _ => exact hstay rfl

/-- **A store follows its map through a run.** -/
theorem Follows.run (calls : List (Call α)) : ∀ {s : SlotStore α} {m : HandleMap α},
    s.Follows m → (s.run calls).Addressable → s.Unworn calls →
      m.Admits (s.trace calls) ∧ (s.run calls).Follows (m.replay (s.trace calls)) := by
  induction calls with
  | nil => exact fun h _ _ => ⟨trivial, h⟩
  | cons call rest ih =>
    intro s m h hroom hround
    have hroom' : (s.perform call).1.Addressable := (cells_size_le_run rest _).trans hroom
    obtain ⟨hallows, hfollows⟩ := h.perform hroom' fun slot hcall hlive => by
      rw [hcall] at hround
      exact hround.erase hlive
    obtain ⟨hadmits, hlast⟩ := ih hfollows hroom (hround.tail h.tidy)
    exact ⟨⟨hallows, hadmits⟩, hlast⟩

/-- **A store acts as a finite map from handles to values.**  From an empty store on, as long as no
index is vacated as often as there are generations and there is an index for each cell: the replies
are those of a map that gives each entry a new handle; handles resolve as in that map; no handle is
given out twice; a handle that was given out and removed never resolves again; and the stack of
vacant indices lists the vacant cells, each once, so that an insertion refills a vacant cell. -/
theorem acts_as_map (calls : List (Call α)) (hroom : (run {} calls).Addressable)
    (hreuse : ∀ i, removals (trace {} calls) i < UInt32.size) :
    HandleMap.Admits {} (trace {} calls) ∧
      (run {} calls).get? = (HandleMap.replay {} (trace {} calls)).find? ∧
      (HandleMap.replay {} (trace {} calls)).issued.Nodup ∧
      (∀ earlier slot later, calls = earlier ++ .erase slot :: later →
        slot ∈ (HandleMap.replay {} (trace {} earlier)).issued →
          (run {} calls).get? slot = none) ∧
      (run {} calls).free.Nodup ∧
      ∀ i, i ∈ (run {} calls).free ↔ ∃ g, (run {} calls).cells[i.toNat]? = some (.vacant g) := by
  have hround : ({} : SlotStore α).Unworn calls := by
    intro i
    have hzero : (({} : SlotStore α).vacancy i).generation.toNat = 0 := rfl
    rw [hzero, Nat.zero_add]
    exact hreuse i
  obtain ⟨hadmits, hfollows⟩ := follows_empty.run calls hroom hround
  refine ⟨hadmits, hfollows.find, HandleMap.nodup_issued_replay _ _ hadmits List.nodup_nil, ?_,
    hfollows.tidy.nodup, fun i => ⟨hfollows.tidy.vacant i, fun ⟨g, hg⟩ =>
      hfollows.listsVacant i g hg⟩⟩
  intro earlier slot later hsplit hissued
  rw [hfollows.find]
  have htrace : trace {} calls = trace {} earlier ++
      (.erase slot, .entry ((run {} earlier).get? slot)) ::
        ((run {} earlier).erase slot).trace later := by
    rw [hsplit, trace_append]
    rfl
  rw [htrace] at hadmits ⊢
  obtain ⟨-, -, hlater⟩ := HandleMap.admits_append.1 hadmits
  have hstale := HandleMap.stale_replay _ _ hlater hissued (Function.update_self ..)
  rw [HandleMap.replay_append]
  exact hstale

/-- A cell that is used twice: its first handle is stale at the end, its second one is live, and two
entries are counted. -/
theorem acts_as_map_reused :
    let calls : List (Call ℕ) :=
      [.insert 7, .insert 8, .erase ⟨0, 0⟩, .size, .insert 9, .replace ⟨0, 1⟩ 6, .find ⟨0, 0⟩,
        .size, .toList]
    HandleMap.Admits {} (trace {} calls) ∧ (run {} calls).get? ⟨0, 0⟩ = none ∧
      (run {} calls).get? ⟨0, 1⟩ = some 6 ∧ (run {} calls).size = 2 := by
  intro calls
  have hroom : (run {} calls).Addressable := by
    show 2 ≤ UInt32.size
    decide
  have hreuse : ∀ i, removals (trace {} calls) i < UInt32.size := fun i =>
    List.countP_le_length.trans_lt (show 9 < UInt32.size by decide)
  obtain ⟨hadmits, -, -, hgone, -, -⟩ := acts_as_map calls hroom hreuse
  exact ⟨hadmits, hgone [.insert 7, .insert 8] ⟨0, 0⟩ _ rfl (by decide), rfl, rfl⟩

end SlotStore

end ElasticLayout
