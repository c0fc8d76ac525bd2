import Mathlib.Data.List.GetD
import Msos.Scripts.GenerateDeviceTree

namespace Msos.Scripts.GenerateDeviceTree

open Msos.Library Msos.Library.Nested

section Positions

-- The drivers of a description, which are the outermost dictionaries with a name of
-- a driver, in their order and with the keys on the way to them.
mutual

def positions (path : List Text) : Value → List (List Text × Entries)
  | .leaf _ => []
  | .list items => positionsItems path items
  | .dict entries =>
      if hasKey driverName entries then [(path, entries)] else positionsEntries path entries

def positionsItems (path : List Text) : List Value → List (List Text × Entries)
  | [] => []
  | item :: rest => positions path item ++ positionsItems path rest

def positionsEntries (path : List Text) : Entries → List (List Text × Entries)
  | [] => []
  | (key, value) :: rest => positions (path ++ [key]) value ++ positionsEntries path rest

end

-- The keys outside drivers, in their order.
mutual

def visitedKeys : Value → List Text
  | .leaf _ => []
  | .list items => visitedKeysItems items
  | .dict entries => if hasKey driverName entries then [] else visitedKeysEntries entries

def visitedKeysItems : List Value → List Text
  | [] => []
  | item :: rest => visitedKeys item ++ visitedKeysItems rest

def visitedKeysEntries : Entries → List Text
  | [] => []
  | (key, value) :: rest => key :: visitedKeys value ++ visitedKeysEntries rest

end

-- Where a driver is.
inductive Outermost : Value → List Text → Entries → Prop
  | here {entries : Entries} (h : hasKey driverName entries = true) :
      Outermost (.dict entries) [] entries
  | item {items : List Value} {item : Value} {path : List Text} {driver : Entries}
      (hm : item ∈ items) (h : Outermost item path driver) : Outermost (.list items) path driver
  | entry {entries : Entries} {key : Text} {value : Value} {path : List Text} {driver : Entries}
      (hnone : hasKey driverName entries = false) (hm : (key, value) ∈ entries)
      (h : Outermost value path driver) : Outermost (.dict entries) (key :: path) driver

theorem positionsItems_eq (path : List Text) (items : List Value) :
    positionsItems path items = items.flatMap (positions path) := by
  induction items with
  | nil => rfl
  | cons item rest ih => rw [positionsItems, ih, List.flatMap_cons]

theorem positionsEntries_eq (path : List Text) (entries : Entries) :
    positionsEntries path entries =
      entries.flatMap fun entry => positions (path ++ [entry.1]) entry.2 := by
  induction entries with
  | nil => rfl
  | cons entry rest ih =>
      obtain ⟨key, value⟩ := entry
      rw [positionsEntries, ih, List.flatMap_cons]

-- Behind a path there is what is behind no path.
theorem positions_eq_map (path : List Text) (value : Value) :
    positions path value =
      (positions [] value).map fun driver => (path ++ driver.1, driver.2) := by
  induction value using Nested.induct generalizing path with
  | leaf text => rw [positions, positions, List.map_nil]
  | list items ih =>
      rw [positions, positions, positionsItems_eq, positionsItems_eq, List.map_flatMap]
      exact List.flatMap_congr fun item hm => ih item hm path
  | dict entries ih =>
      rw [positions, positions]
      split
      · rw [List.map_singleton, List.append_nil]
      · rw [positionsEntries_eq, positionsEntries_eq, List.map_flatMap]
        refine List.flatMap_congr fun entry hm => ?_
        rw [ih entry hm (path ++ [entry.1]), ih entry hm ([] ++ [entry.1]), List.map_map]
        apply List.map_congr_left
        intro driver _
        simp

-- The keys of a dictionary are put in front of the paths below them.
theorem positions_dict {entries : Entries} (h : hasKey driverName entries = false) :
    positions [] (.dict entries) = entries.flatMap fun entry =>
      (positions [] entry.2).map fun driver => (entry.1 :: driver.1, driver.2) := by
  rw [positions, h, if_neg Bool.false_ne_true, positionsEntries_eq]
  exact List.flatMap_congr fun entry _ => positions_eq_map [entry.1] entry.2

theorem mem_positions_iff (value : Value) (path : List Text) (driver : Entries) :
    (path, driver) ∈ positions [] value ↔ Outermost value path driver := by
  induction value using Nested.induct generalizing path with
  | leaf text =>
      rw [positions]
      exact ⟨fun h => absurd h List.not_mem_nil, fun h => by cases h⟩
  | list items ih =>
      rw [positions, positionsItems_eq, List.mem_flatMap]
      constructor
      · rintro ⟨item, hm, h⟩
        exact .item hm ((ih item hm path).mp h)
      · intro h
        cases h with
        | item hm h => exact ⟨_, hm, (ih _ hm path).mpr h⟩
  | dict entries ih =>
      by_cases hdriver : hasKey driverName entries
      · rw [positions, if_pos hdriver, List.mem_singleton]
        constructor
        · intro h
          obtain ⟨rfl, rfl⟩ := Prod.mk.inj h
          exact .here hdriver
        · intro h
          cases h with
          | here _ => rfl
          | entry hnone _ _ =>
              rw [hdriver] at hnone
              cases hnone
      · rw [Bool.not_eq_true] at hdriver
        rw [positions_dict hdriver, List.mem_flatMap]
        constructor
        · rintro ⟨entry, hm, h⟩
          obtain ⟨⟨rest, found⟩, hfound, heq⟩ := List.mem_map.mp h
          obtain ⟨rfl, rfl⟩ := Prod.mk.inj heq
          exact .entry hdriver hm ((ih entry hm rest).mp hfound)
        · intro h
          cases h with
          | here h =>
              rw [hdriver] at h
              cases h
          | entry _ hm h => exact ⟨_, hm, List.mem_map.mpr ⟨_, (ih _ hm _).mpr h, rfl⟩⟩

end Positions

section Traversal

-- The list of a path grows by keys, and drivers are paired with it.
def State.grow (state : State) (path : Nat) (keys : List Text) (drivers : List Entries) : State where
  paths := state.paths.modify path fun old => old ++ keys
  drivers := state.drivers ++ drivers.map fun driver => (path, driver)

variable (state : State) (path : Nat)

theorem State.grow_nil : state.grow path [] [] = state := by
  have hkeep : (fun old : List Text => old ++ []) = id := by
    funext old
    exact List.append_nil old
  rw [grow, hkeep, List.modify_id, List.map_nil, List.append_nil]

theorem State.grow_grow (keys more : List Text) (drivers others : List Entries) :
    (state.grow path keys drivers).grow path more others =
      state.grow path (keys ++ more) (drivers ++ others) := by
  have hboth : (fun old : List Text => old ++ more) ∘ (fun old => old ++ keys) =
      fun old => old ++ (keys ++ more) := by
    funext old
    exact List.append_assoc old keys more
  rw [grow, grow, grow, List.modify_modify_eq, hboth, List.map_append, List.append_assoc]

theorem State.append_eq (key : Text) : state.append path key = state.grow path [key] [] := by
  rw [grow, append, List.map_nil, List.append_nil]

theorem State.addDriver_eq (driver : Entries) :
    state.addDriver path driver = state.grow path [] [driver] := by
  have hsame := congrArg State.paths (state.grow_nil path)
  rw [addDriver, ← hsame]
  rfl

def driversOf (value : Value) : List Entries := (positions [] value).map Prod.snd

theorem driversOf_list (items : List Value) :
    driversOf (.list items) = items.flatMap driversOf := by
  rw [driversOf, positions, positionsItems_eq, List.map_flatMap]
  rfl

theorem driversOf_dict {entries : Entries} (h : hasKey driverName entries = false) :
    driversOf (.dict entries) = entries.flatMap fun entry => driversOf entry.2 := by
  rw [driversOf, positions_dict h, List.map_flatMap]
  refine List.flatMap_congr fun entry _ => ?_
  rw [List.map_map]
  rfl

-- All keys that are met below a value go into the one list, and none is taken out.
theorem processNextKey_eq (value : Value) :
    processNextKey path state value = state.grow path (visitedKeys value) (driversOf value) := by
  induction value using Nested.induct generalizing state with
  | leaf text =>
      rw [processNextKey, visitedKeys, driversOf, positions, List.map_nil, state.grow_nil]
  | list items ih =>
      rw [processNextKey, visitedKeys, driversOf_list]
      induction items generalizing state with
      | nil => rw [processListKey, visitedKeysItems, List.flatMap_nil, state.grow_nil]
      | cons item rest ihRest =>
          obtain ⟨hitem, hrest⟩ := List.forall_mem_cons.mp ih
          rw [processListKey, hitem, ihRest hrest, State.grow_grow, visitedKeysItems,
            List.flatMap_cons]
  | dict entries ih =>
      by_cases hdriver : hasKey driverName entries
      · rw [processNextKey, if_pos hdriver, State.addDriver_eq, visitedKeys, if_pos hdriver,
          driversOf, positions, if_pos hdriver]
        rfl
      · rw [processNextKey, visitedKeys, if_neg hdriver, if_neg hdriver,
          driversOf_dict ((Bool.not_eq_true _).mp hdriver)]
        clear hdriver
        induction entries generalizing state with
        | nil => rw [processEntries, visitedKeysEntries, List.flatMap_nil, state.grow_nil]
        | cons entry rest ihRest =>
            obtain ⟨hentry, hrest⟩ := List.forall_mem_cons.mp ih
            obtain ⟨key, value⟩ := entry
            rw [processEntries, State.append_eq, hentry, ihRest hrest, State.grow_grow,
              State.grow_grow, visitedKeysEntries, List.flatMap_cons]
            rfl

end Traversal

section Branches

-- The tuples of a branch all have the same list.
def branch (entry : Text × Value) : List (List Text × Entries) :=
  (driversOf entry.2).map fun driver => (entry.1 :: visitedKeys entry.2, driver)

theorem modify_concat {α : Type} (f : α → α) (front : List α) (last : α) :
    (front ++ [last]).modify front.length f = front ++ [f last] := by
  induction front with
  | nil => rfl
  | cons head rest ih =>
      rw [List.cons_append, List.length_cons, List.modify_succ_cons, ih, List.cons_append]

theorem processBranch_eq (state : State) (entry : Text × Value) :
    processBranch state entry =
      { paths := state.paths ++ [entry.1 :: visitedKeys entry.2]
        drivers := state.drivers ++
          (driversOf entry.2).map fun driver => (state.paths.length, driver) } := by
  rw [processBranch, processNextKey_eq, State.grow, modify_concat, List.singleton_append]

-- Each driver is paired with a list that was made.
def State.Paired (state : State) : Prop := ∀ driver ∈ state.drivers, driver.1 < state.paths.length

variable {state : State}

theorem paired_processBranch (h : state.Paired) (entry : Text × Value) :
    (processBranch state entry).Paired := by
  rw [processBranch_eq]
  intro driver hm
  change driver.1 < (state.paths ++ [entry.1 :: visitedKeys entry.2]).length
  rw [List.length_append, List.length_singleton]
  rcases List.mem_append.mp hm with hm | hm
  · have hold := h driver hm
    omega
  · obtain ⟨_, _, rfl⟩ := List.mem_map.mp hm
    exact Nat.lt_succ_self _

-- The lists of earlier branches are not touched.
theorem pairs_processBranch (h : state.Paired) (entry : Text × Value) :
    (processBranch state entry).pairs = state.pairs ++ branch entry := by
  rw [processBranch_eq, State.pairs, State.pairs, branch, List.map_append, List.map_map]
  congr 1
  · apply List.map_congr_left
    intro driver hm
    rw [List.getD_append _ _ _ _ (h driver hm)]
  · apply List.map_congr_left
    intro driver _
    rw [Function.comp_apply, List.getD_append_right _ _ _ _ (Nat.le_refl _), Nat.sub_self]
    rfl

theorem pairs_foldl_processBranch (h : state.Paired) (entries : Entries) :
    (entries.foldl processBranch state).pairs = state.pairs ++ entries.flatMap branch := by
  induction entries generalizing state with
  | nil => rw [List.foldl_nil, List.flatMap_nil, List.append_nil]
  | cons entry rest ih =>
      rw [List.foldl_cons, ih (paired_processBranch h entry), pairs_processBranch h,
        List.flatMap_cons, List.append_assoc]

theorem processNext_dict (entries : Entries) :
    processNext (.dict entries) = .ok (entries.flatMap branch) := by
  have hempty : State.Paired ⟨[], []⟩ := fun _ hm => absurd hm List.not_mem_nil
  rw [processNext, pairs_foldl_processBranch hempty]
  rfl

end Branches

section Indices

-- An index of a list of a length
def IsIndex (length : Nat) (key : Value) : Prop :=
  ∃ index, asIndex key = some index ∧ -(length : Int) ≤ index ∧ index < length

variable {items : List Value} {key : Value}

theorem exists_listItem_iff :
    (∃ item, listItem items key = .ok item) ↔ IsIndex items.length key := by
  rw [listItem, IsIndex]
  cases hindex : asIndex key with
  | none => simp
  | some index =>
      by_cases hback : index < -(items.length : Int)
      · have hnegative : index < 0 := by omega
        have hposition : index + items.length < 0 := by omega
        simp [hnegative, hposition]
        omega
      · by_cases hnegative : index < 0
        · have hposition : ¬ index + items.length < 0 := by omega
          have hlt : (index + items.length).toNat < items.length := by omega
          have hindex : index < items.length := by omega
          simp [hnegative, hposition, List.getElem?_eq_getElem hlt, hindex]
          omega
        · by_cases hlt : index < items.length
          · have htoNat : index.toNat < items.length := by omega
            simp [hnegative, List.getElem?_eq_getElem htoNat, hlt]
            omega
          · have hnone : items[index.toNat]? = none := List.getElem?_eq_none (by omega)
            simp [hnegative, hnone, hlt]

theorem mem_of_listItem {item : Value} (h : listItem items key = .ok item) : item ∈ items := by
  rw [listItem] at h
  cases hindex : asIndex key with
  | none =>
      rw [hindex] at h
      cases h
  | some index =>
      rw [hindex] at h
      dsimp only at h
      generalize (if index < 0 then index + items.length else index) = position at h
      by_cases hposition : position < 0
      · rw [if_pos hposition] at h
        cases h
      · rw [if_neg hposition] at h
        cases hitem : items[position.toNat]? with
        | none =>
            rw [hitem] at h
            cases h
        | some found =>
            rw [hitem] at h
            cases h
            exact List.mem_of_getElem? hitem

-- What is no index of the list ends the loop.
theorem forall_isIndex_of_foldlM {rest : List Value} {state found : State}
    (h : rest.foldlM (processItem items) state = .ok found) :
    ∀ key ∈ rest, IsIndex items.length key := by
  induction rest generalizing state with
  | nil => exact fun key hm => absurd hm List.not_mem_nil
  | cons head rest ih =>
      rw [List.foldlM_cons, processItem] at h
      cases hitem : listItem items head with
      | error _ =>
          rw [hitem] at h
          cases h
      | ok item =>
          rw [hitem] at h
          exact List.forall_mem_cons.mpr ⟨exists_listItem_iff.mp ⟨item, hitem⟩, ih h⟩

-- An index leads to an index, where no driver is.
theorem driversOf_of_isIndex {length : Nat} (h : IsIndex length key) : driversOf key = [] := by
  obtain ⟨index, hindex, -⟩ := h
  cases key with
  | leaf value => rw [driversOf, positions, List.map_nil]
  | list items => cases hindex
  | dict entries => cases hindex

theorem foldlM_of_forall_isIndex {rest : List Value} (state : State)
    (hitems : ∀ key ∈ items, IsIndex items.length key)
    (h : ∀ key ∈ rest, IsIndex items.length key) :
    ∃ found, rest.foldlM (processItem items) state = .ok found ∧
      found.drivers = state.drivers := by
  induction rest generalizing state with
  | nil => exact ⟨state, rfl, rfl⟩
  | cons head rest ih =>
      obtain ⟨hhead, hrest⟩ := List.forall_mem_cons.mp h
      obtain ⟨item, hitem⟩ := exists_listItem_iff.mpr hhead
      have hnone := driversOf_of_isIndex (hitems item (mem_of_listItem hitem))
      have hkeep : (processNextKey state.paths.length
          { state with paths := state.paths ++ [[]] } item).drivers = state.drivers := by
        rw [processNextKey_eq, hnone, State.grow, List.map_nil, List.append_nil]
      obtain ⟨found, hfound, hdrivers⟩ := ih (processNextKey state.paths.length
        { state with paths := state.paths ++ [[]] } item) hrest
      refine ⟨found, ?_, hdrivers.trans hkeep⟩
      rw [List.foldlM_cons, processItem, hitem]
      exact hfound

theorem processNext_list_of_isIndex (h : ∀ key ∈ items, IsIndex items.length key) :
    processNext (.list items) = .ok [] := by
  obtain ⟨found, hfound, hdrivers⟩ := foldlM_of_forall_isIndex ⟨[], []⟩ h h
  have hpairs : found.pairs = [] := by rw [State.pairs, hdrivers, List.map_nil]
  rw [processNext, hfound, ← hpairs]
  rfl

theorem positions_list_of_isIndex (h : ∀ key ∈ items, IsIndex items.length key) :
    positions [] (.list items) = [] := by
  have hdrivers : driversOf (.list items) = [] := by
    rw [driversOf_list, List.flatMap_eq_nil_iff]
    exact fun item hm => driversOf_of_isIndex (h item hm)
  exact List.map_eq_nil_iff.mp hdrivers

end Indices

section Paths

-- The positions of the drivers below a key
def below (entry : Text × Value) : List (List Text × Entries) :=
  (positions [] entry.2).map fun driver => (entry.1 :: driver.1, driver.2)

-- Every key that is met below the key of the root is on the way to every driver below it.
def OneWay (value : Value) : Prop :=
  ∀ path driver, Outermost value path driver → visitedKeys value = path

theorem branch_eq_below_iff (entry : Text × Value) :
    branch entry = below entry ↔ OneWay entry.2 := by
  rw [branch, below, driversOf, List.map_map, List.map_inj_left]
  constructor
  · intro h path driver hd
    have heq := h _ ((mem_positions_iff entry.2 path driver).mpr hd)
    exact (List.cons.inj (Prod.mk.inj heq).1).2
  · rintro h ⟨path, driver⟩ hm
    have hpath := h path driver ((mem_positions_iff entry.2 path driver).mp hm)
    rw [Function.comp_apply, hpath]

theorem length_branch (entry : Text × Value) : (branch entry).length = (below entry).length := by
  rw [branch, below, driversOf, List.length_map, List.length_map, List.length_map]

theorem flatMap_inj_of_length {α β : Type} {f g : α → List β} {xs : List α}
    (hlength : ∀ x, (f x).length = (g x).length) :
    xs.flatMap f = xs.flatMap g ↔ ∀ x ∈ xs, f x = g x := by
  constructor
  · intro h
    induction xs with
    | nil => exact fun x hx => absurd hx List.not_mem_nil
    | cons head rest ih =>
        rw [List.flatMap_cons, List.flatMap_cons] at h
        obtain ⟨hhead, hrest⟩ := List.append_inj h (hlength head)
        exact List.forall_mem_cons.mpr ⟨hhead, ih hrest⟩
  · exact List.flatMap_congr

-- What is returned, and what is generated, is about the drivers at their positions.
structure ShowsPositions (root : Value) : Prop where
  drivers : processNext root = .ok (positions [] root)
  cpp : (processNext root).bind generateCpp = generateCpp (positions [] root)
  cmake : ∀ upper, (processNext root).bind (generateCmakeLibrary upper) =
    generateCmakeLibrary upper (positions [] root)

theorem showsPositions_iff_drivers (root : Value) :
    ShowsPositions root ↔ processNext root = .ok (positions [] root) := by
  refine ⟨ShowsPositions.drivers, fun h => ⟨h, ?_, fun upper => ?_⟩⟩
  · rw [h]
    rfl
  · rw [h]
    rfl

-- The descriptions that can be read: the root is a dictionary that is no driver itself,
-- a list of indices of it, or a text with nothing to go over.
def Readable : Value → Prop
  | .leaf (.string text) => text = []
  | .leaf _ => False
  | .list items => ∀ item ∈ items, IsIndex items.length item
  | .dict entries => hasKey driverName entries = false ∧ ∀ entry ∈ entries, OneWay entry.2

-- The root itself is never asked for the name of a driver.
theorem processNext_ne_driver {entries : Entries} (h : hasKey driverName entries = true) :
    processNext (.dict entries) ≠ .ok (positions [] (.dict entries)) := by
  rw [processNext_dict, positions, if_pos h]
  intro heq
  have hm : ([], entries) ∈ entries.flatMap branch := by
    rw [Except.ok.inj heq]
    exact List.mem_singleton_self _
  obtain ⟨entry, _, hbranch⟩ := List.mem_flatMap.mp hm
  obtain ⟨_, _, hpair⟩ := List.mem_map.mp hbranch
  exact List.cons_ne_nil _ _ (Prod.mk.inj hpair).1

theorem processNext_dict_iff {entries : Entries} (h : hasKey driverName entries = false) :
    processNext (.dict entries) = .ok (positions [] (.dict entries)) ↔
      ∀ entry ∈ entries, OneWay entry.2 := by
  have hpositions : positions [] (.dict entries) = entries.flatMap below := positions_dict h
  rw [processNext_dict, hpositions, Except.ok.injEq, flatMap_inj_of_length length_branch]
  exact forall₂_congr fun entry _ => branch_eq_below_iff entry

theorem processNext_list_iff (items : List Value) :
    processNext (.list items) = .ok (positions [] (.list items)) ↔
      ∀ item ∈ items, IsIndex items.length item := by
  constructor
  · intro h
    rw [processNext] at h
    cases hfold : items.foldlM (processItem items) ⟨[], []⟩ with
    | error _ =>
        rw [hfold] at h
        cases h
    | ok found => exact forall_isIndex_of_foldlM hfold
  · intro h
    rw [processNext_list_of_isIndex h, positions_list_of_isIndex h]

theorem showsPositions_iff (root : Value) : ShowsPositions root ↔ Readable root := by
  rw [showsPositions_iff_drivers]
  cases root with
  | leaf value =>
      rw [positions]
      cases value with
      | string text => cases text <;> simp [processNext, Readable]
      | int value => simp [processNext, Readable]
      | float numeral => simp [processNext, Readable]
      | bool value => simp [processNext, Readable]
      | none => simp [processNext, Readable]
  | list items => exact processNext_list_iff items
  | dict entries =>
      rw [Readable]
      cases hdriver : hasKey driverName entries with
      | true =>
          have hne := processNext_ne_driver hdriver
          exact ⟨fun h => absurd h hne, fun h => Bool.noConfusion h.1⟩
      | false => rw [processNext_dict_iff hdriver, and_iff_right rfl]

def usart : Value := .dict
  [("name".toList, .leaf (.string "tty1".toList)),
    (driverName, .leaf (.string "usart1".toList))]

def gpio : Value := .dict
  [("name".toList, .leaf (.string "gpio1".toList)),
    (driverName, .leaf (.string "gpio1".toList))]

-- The driver of the first category gets the key of the second one too.
theorem categories_not_showsPositions :
    ¬ ShowsPositions (.dict [("character".toList,
      .list [.dict [("usart".toList, .list [usart]), ("gpio".toList, .list [gpio])]])]) := by
  intro h
  have hpaths := congrArg (Except.map (List.map Prod.fst)) h.drivers
  revert hpaths
  decide

end Paths

end Msos.Scripts.GenerateDeviceTree
