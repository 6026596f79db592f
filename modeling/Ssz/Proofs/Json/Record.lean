import Mathlib.Data.List.Basic
import Ssz.Json.Basic
import Ssz.Proofs.Checked

/-! Records in JSON values: what it means to hold their parts, and that these are what is read. -/

namespace Ssz.JsonValue

/-- The contents of the members of an object that have a name. -/
def named (name : String) (members : List (Option String × JsonValue)) : List JsonValue :=
  members.filterMap fun member => if member.1 = some name then some member.2 else none

/-- Members all have names that are text, and those with names of no use are whole. -/
def Orderly (names : List String) (members : List (Option String × JsonValue)) : Prop :=
  ∀ member ∈ members, ∃ name, member.1 = some name ∧ (name ∈ names ∨ member.2.isWhole = true)

/--
A value holds the parts of a record: as an array of just these in order, or as an object in which
each name stands once, wherever that is, and all other members are passed over.
-/
def Holds (names : List String) (parts : List JsonValue) : JsonValue → Prop
  | array elements => elements = parts ∧ parts.length = names.length
  | object members => Orderly names members ∧ names.map (named · members) = parts.map ([·])
  | _ => False

/-- Parts are read by their places, which are counted from one of them on. -/
def ReadsFrom {α : Type} (read : (place : Nat) → JsonValue → Except TextError α) :
    (place : Nat) → (parts : List JsonValue) → (results : List α) → Prop
  | _, [], [] => True
  | place, part :: parts, result :: results =>
    read place part = .ok result ∧ ReadsFrom read (place + 1) parts results
  | _, _, _ => False

/-- A value holds one list of parts at most. -/
theorem Holds.unique {names : List String} {parts others : List JsonValue} {value : JsonValue}
    (holds : value.Holds names parts) (also : value.Holds names others) : parts = others := by
  -- An array is its parts, and an object lists them by the names that are asked for.
  cases value with
  | array elements => exact holds.1.symm.trans also.1
  | object members =>
    exact (List.map_injective_iff.mpr fun _ _ => List.singleton_inj.mp)
      (holds.2.symm.trans also.2)
  | _ => exact holds.elim

/-- A value stands somewhere inside another one, or is that one as a whole. -/
inductive Inside (part : JsonValue) : JsonValue → Prop where
  | whole : Inside part part
  | element {elements : List JsonValue} {element : JsonValue} (within : Inside part element)
    (member : element ∈ elements) : Inside part (array elements)
  | member {members : List (Option String × JsonValue)} {member : Option String × JsonValue}
    (within : Inside part member.2) (inside : member ∈ members) : Inside part (object members)

/-- What is inside a part is inside the whole. -/
theorem Inside.trans {inner part value : JsonValue} (deep : inner.Inside part)
    (within : part.Inside value) : inner.Inside value := by
  induction within with
  | whole => exact deep
  | element _ member ih => exact .element ih member
  | member _ inside ih => exact .member ih inside

section Read

variable {α : Type} {read : (place : Nat) → JsonValue → Except TextError α} {names : List String}
  {parts : List JsonValue} {results : List α} {exceeded : LimitError}

/-- Parts are read by their places exactly if each of them is. -/
theorem readsFrom_iff {place : Nat} : ReadsFrom read place parts results ↔
    parts.length = results.length ∧ ∀ (i : Nat) (part : JsonValue) (result : α),
      parts[i]? = some part → results[i]? = some result → read (place + i) part = .ok result := by
  -- A part that is not the first of all is read one place further on, so the place is generalized.
  induction parts generalizing place results with
  | nil => cases results <;> simp [ReadsFrom]
  | cons part parts ih =>
    cases results with
    | nil => simp [ReadsFrom]
    | cons result results =>
      rw [ReadsFrom, ih, List.length_cons, List.length_cons, Nat.add_right_cancel_iff]
      constructor
      · intro ⟨own, sized, others⟩
        refine ⟨sized, fun i => ?_⟩
        cases i with
        | zero => simpa using own
        | succ i => simpa [Nat.add_assoc, Nat.add_comm 1] using others i
      · intro ⟨sized, each⟩
        refine ⟨by simpa using each 0, sized, fun i => ?_⟩
        simpa [Nat.add_assoc, Nat.add_comm 1] using each (i + 1)

section Places

/-- An array is read as a record exactly if it has as many elements and each of them is read. -/
theorem readPlaces_eq_ok {place count : Nat} : readPlaces read place count parts =
    .ok (results.map some) ↔ parts.length = count ∧ ReadsFrom read place parts results := by
  -- Parts that are left over and parts that are missing are both refused, which fixes their number.
  induction count generalizing place parts results with
  | zero => cases parts <;> cases results <;> simp [readPlaces, ReadsFrom]
  | succ count ih =>
    cases parts with
    | nil => simp [readPlaces]
    | cons part parts =>
      cases results with
      | nil => simp [readPlaces, ReadsFrom, bind_eq_ok]
      | cons result results =>
        simp only [readPlaces, ReadsFrom, bind_eq_ok, pure_eq_ok, Except.ok.injEq, List.map_cons,
          List.cons.injEq, Option.some.injEq, List.length_cons, Nat.add_right_cancel_iff]
        constructor
        · rintro ⟨own, read, others, rest, rfl, rfl⟩
          obtain ⟨sized, later⟩ := ih.mp rest
          exact ⟨sized, read, later⟩
        · rintro ⟨sized, read, later⟩
          exact ⟨result, read, _, ih.mpr ⟨sized, later⟩, rfl, rfl⟩

/-- Elements that exceed a limit when they are read as a record have one that does. -/
theorem exists_of_readPlaces_eq_limit {place count : Nat}
    (failed : readPlaces read place count parts = .error (.limit exceeded)) :
    ∃ i, ∃ part ∈ parts, read i part = .error (.limit exceeded) := by
  -- The first part that fails is the culprit, since a wrong number of parts exceeds no limit.
  induction count generalizing place parts with
  | zero => cases parts <;> cases failed
  | succ count ih =>
    cases parts with
    | nil => cases failed
    | cons part parts =>
      rw [readPlaces, bind_eq_error] at failed
      rcases failed with own | ⟨result, _, failed⟩
      · exact ⟨place, part, List.mem_cons_self, own⟩
      · rcases bind_eq_error.mp failed with later | ⟨others, _, none⟩
        · obtain ⟨i, other, inside, found⟩ := ih later
          exact ⟨i, other, List.mem_cons_of_mem _ inside, found⟩
        · cases none

end Places

section Members

variable {members : List (Option String × JsonValue)} {name other : String} {content : JsonValue}

/-- A member counts among those with its name. -/
theorem named_cons_self : named name ((some name, content) :: members) =
    content :: named name members := by
  simp [named]

/-- A member does not count among those with another name. -/
theorem named_cons_other (different : name ≠ other) :
    named other ((some name, content) :: members) = named other members := by
  simp [named, different]

/--
What is found for a place changes by the members with its name: none leaves it as it is, and a
single one fills it where it was empty.
-/
def Fills (read : (place : Nat) → JsonValue → Except TextError α) (place : Nat)
    (contents : List JsonValue) (before after : Option (Option α)) : Prop :=
  contents = [] ∧ after = before ∨ ∃ content result, contents = [content] ∧ before = some none ∧
    read place content = .ok result ∧ after = some (some result)

/-- A place is filled by the first of its members, which has to be the only one. -/
theorem fills_cons {place : Nat} {contents : List JsonValue} {before after : Option (Option α)} :
    Fills read place (content :: contents) before after ↔
      before = some none ∧ ∃ result, read place content = .ok result ∧
        Fills read place contents (some (some result)) after := by
  -- A single member goes into an empty place, and no second one may follow it.
  constructor
  · rintro (⟨none, _⟩ | ⟨_, result, same, empty, read, after⟩)
    · cases none
    · obtain ⟨rfl, rfl⟩ := List.cons.inj same
      exact ⟨empty, result, read, .inl ⟨rfl, after⟩⟩
  · rintro ⟨empty, result, read, ⟨rfl, after⟩ | ⟨_, _, _, full, _⟩⟩
    · exact .inr ⟨content, result, rfl, empty, read, after⟩
    · cases full

/-- A place without members of its name is left as it is. -/
theorem fills_nil {place : Nat} {before after : Option (Option α)} :
    Fills read place [] before after ↔ after = before := by
  simp [Fills]

variable (distinct : names.Nodup)

include distinct in
/-- A name is found at the only place that it has. -/
theorem getElem?_idxOf? {place : Nat} (known : names.idxOf? name = some place) (other : Nat) :
    names[other]? = some name ↔ other = place := by
  -- The first occurrence of a name is its only one, as all names are distinct.
  obtain ⟨inside, here, _⟩ := List.idxOf?_eq_some_iff.mp known
  have found : names[place]? = some name := by rw [List.getElem?_eq_getElem inside, here]
  constructor
  · intro again
    obtain ⟨other_inside, _⟩ := List.getElem?_eq_some_iff.mp again
    exact (List.getElem?_inj other_inside distinct).mp (again.trans found.symm)
  · intro same
    rwa [same]

/-- Every place is filled by the members with its name. -/
def FillsPlaces (names : List String) (read : (place : Nat) → JsonValue → Except TextError α)
    (members : List (Option String × JsonValue)) (found filled : List (Option α)) : Prop :=
  ∀ (place : Nat) (name : String), names[place]? = some name →
    Fills read place (named name members) found[place]? filled[place]?

section Places

variable {found filled : List (Option α)}

/-- Without members all places are left as they are. -/
theorem fillsPlaces_nil (sized : found.length = names.length) :
    filled.length = names.length ∧ FillsPlaces names read [] found filled ↔ found = filled := by
  -- No name has a member, so the places agree one by one, and so do the lists.
  simp only [FillsPlaces, named, List.filterMap_nil, fills_nil]
  constructor
  · intro ⟨filled_sized, same⟩
    refine List.ext_getElem? fun place => ?_
    rcases Nat.lt_or_ge place names.length with inside | outside
    · exact (same place _ (List.getElem?_eq_getElem inside)).symm
    · rw [List.getElem?_eq_none (sized ▸ outside), List.getElem?_eq_none (filled_sized ▸ outside)]
  · intro same
    exact ⟨same ▸ sized, fun _ _ _ => by rw [same]⟩

/-- A first member with a name of no use fills nothing, and the others fill all there is. -/
theorem fillsPlaces_unused (unused : name ∉ names) :
    FillsPlaces names read ((some name, content) :: members) found filled ↔
      FillsPlaces names read members found filled := by
  refine forall₂_congr fun place other => forall_congr' fun here => ?_
  rw [named_cons_other]
  intro same
  exact unused (same ▸ List.mem_of_getElem? here)

/-- A first member fills the place of its name, and the others fill what is left after that. -/
theorem fillsPlaces_cons {place : Nat}
    (own : ∀ other : Nat, names[other]? = some name ↔ other = place)
    (empty : found[place]? = some none) :
    FillsPlaces names read ((some name, content) :: members) found filled ↔
      ∃ part, read place content = .ok part ∧
        FillsPlaces names read members (found.set place (some part)) filled := by
  have here := (own place).mpr rfl
  have inside := (List.getElem?_eq_some_iff.mp empty).1
  -- What is found elsewhere is not changed, and no other name has this member.
  have apart {other : Nat} {key : String} (elsewhere : other ≠ place)
      (there : names[other]? = some key) : name ≠ key := by
    intro same
    exact elsewhere ((own other).mp (same ▸ there))
  constructor
  · intro fill
    have first := fill place name here
    rw [named_cons_self, fills_cons] at first
    obtain ⟨_, part, read, later⟩ := first
    refine ⟨part, read, fun other key there => ?_⟩
    by_cases same : other = place
    · obtain rfl : name = key := Option.some.inj (here.symm.trans (same ▸ there))
      rwa [same, List.getElem?_set_self inside]
    · have rest := fill other key there
      rwa [named_cons_other (apart same there), ← List.getElem?_set_ne (Ne.symm same)] at rest
  · intro ⟨part, read, later⟩ other key there
    have rest := later other key there
    by_cases same : other = place
    · obtain rfl : name = key := Option.some.inj (here.symm.trans (same ▸ there))
      rw [same, List.getElem?_set_self inside] at rest
      rw [same, named_cons_self, fills_cons]
      exact ⟨empty, part, read, rest⟩
    · rwa [named_cons_other (apart same there), ← List.getElem?_set_ne (Ne.symm same)]

end Places

include distinct in
/-- Members are read exactly if they are orderly, and fill the places of the names they have. -/
theorem readMembers_eq_ok {found filled : List (Option α)} (sized : found.length = names.length) :
    readMembers names read found members = .ok filled ↔
      Orderly names members ∧ filled.length = names.length ∧
        FillsPlaces names read members found filled := by
  induction members generalizing found with
  | nil =>
    simp only [readMembers, Except.ok.injEq, fillsPlaces_nil sized, Orderly]
    exact (and_iff_right nofun).symm
  | cons member rest ih =>
    obtain ⟨key, content⟩ := member
    rw [Orderly, List.forall_mem_cons, ← Orderly]
    cases key with
    | none => simp [readMembers]
    | some name =>
      rw [readMembers]
      cases known : names.idxOf? name with
      | none =>
        have unused : name ∉ names := List.idxOf?_eq_none_iff.mp known
        rw [fillsPlaces_unused unused]
        cases whole : content.isWhole with
        | false => simp [unused]
        | true => simp [ih sized]
      | some place =>
        have own := getElem?_idxOf? distinct known
        have here : names[place]? = some name := (own place).mpr rfl
        obtain ⟨before, current⟩ : ∃ before, found[place]? = some before := by
          have inside := (List.getElem?_eq_some_iff.mp here).1
          exact ⟨_, List.getElem?_eq_getElem (sized ▸ inside)⟩
        cases before with
        | some result =>
          -- The place is full already, and a second member does not fill it.
          simp only [current, Option.join_some, Option.isSome_some, if_true, reduceCtorEq,
            false_iff]
          intro ⟨_, _, fill⟩
          have again := fill place name here
          rw [named_cons_self, fills_cons, current] at again
          cases again.1
        | none =>
          have useful : name ∈ names := List.mem_of_getElem? here
          rw [fillsPlaces_cons own current]
          simp only [current, Option.join_some, Option.isSome_none, Bool.false_eq_true, if_false,
            bind_eq_ok, ih ((List.length_set ..).trans sized), Option.some.injEq, exists_eq_left',
            useful, true_or, true_and]
          constructor
          · intro ⟨part, read, orderly, filled_sized, later⟩
            exact ⟨orderly, filled_sized, part, read, later⟩
          · intro ⟨orderly, filled_sized, part, read, later⟩
            exact ⟨part, read, orderly, filled_sized, later⟩

/-- Members of a record that exceed a limit have one whose content does. -/
theorem exists_of_readMembers_eq_limit {found : List (Option α)}
    (failed : readMembers names read found members = .error (.limit exceeded)) :
    ∃ i, ∃ member ∈ members, read i member.2 = .error (.limit exceeded) := by
  -- Only contents can exceed a limit: unknown members are skipped and repeated ones are malformed.
  induction members generalizing found with
  | nil => cases failed
  | cons member rest ih =>
    have later {found : List (Option α)}
        (failed : readMembers names read found rest = .error (.limit exceeded)) :
        ∃ i, ∃ other ∈ member :: rest, read i other.2 = .error (.limit exceeded) := by
      obtain ⟨i, other, inside, here⟩ := ih failed
      exact ⟨i, other, List.mem_cons_of_mem _ inside, here⟩
    obtain ⟨key, content⟩ := member
    cases key with
    | none => cases failed
    | some name =>
      rw [readMembers] at failed
      split at failed
      · split at failed
        · exact later failed
        · cases failed
      · split at failed
        · cases failed
        · rcases bind_eq_error.mp failed with own | ⟨part, _, failed⟩
          · exact ⟨_, _, List.mem_cons_self, own⟩
          · exact later failed

end Members

/-- Single contents are read by their places exactly if each of them fills an empty place. -/
theorem exists_readsFrom_iff {place : Nat} {contents : List (List JsonValue)} :
    (∃ parts : List JsonValue, contents = parts.map ([·]) ∧ ReadsFrom read place parts results) ↔
      results.length = contents.length ∧ ∀ (i : Nat) (own : List JsonValue),
        contents[i]? = some own →
          Fills read (place + i) own (some none) (results.map some)[i]? := by
  constructor
  · rintro ⟨parts, rfl, reads⟩
    obtain ⟨sized, each⟩ := readsFrom_iff.mp reads
    refine ⟨by rw [List.length_map, sized], fun i own here => ?_⟩
    rw [List.getElem?_map, Option.map_eq_some_iff] at here
    obtain ⟨part, here, rfl⟩ := here
    have inside := (List.getElem?_eq_some_iff.mp here).1
    have there := List.getElem?_eq_getElem (sized ▸ inside)
    exact .inr ⟨part, _, rfl, rfl, each i part _ here there, by rw [List.getElem?_map, there]; rfl⟩
  · intro ⟨sized, fill⟩
    induction contents generalizing place results with
    | nil =>
      obtain rfl := List.length_eq_zero_iff.mp sized
      exact ⟨[], rfl, trivial⟩
    | cons own contents ih =>
      obtain ⟨result, results, rfl⟩ := List.exists_cons_of_length_eq_add_one sized
      obtain ⟨parts, rfl, reads⟩ := @ih results (place + 1) (Nat.succ.inj sized) (by
        intro i later here
        simpa [Nat.add_assoc, Nat.add_comm 1] using fill (i + 1) later here)
      -- The first content may not be missing, as its place would stay empty.
      rcases fill 0 own rfl with ⟨_, left⟩ | ⟨part, _, rfl, _, read, filled⟩
      · cases left
      · cases filled
        exact ⟨part :: parts, rfl, read, reads⟩

/-- A value is read as a record exactly if it holds parts that are read by their places. -/
theorem readRecord_eq_ok {value : JsonValue} (distinct : names.Nodup) :
    value.readRecord names read = .ok (results.map some) ↔
      ∃ parts, value.Holds names parts ∧ ReadsFrom read 0 parts results := by
  cases value with
  | array elements =>
    rw [readRecord, readPlaces_eq_ok]
    constructor
    · intro ⟨sized, reads⟩
      exact ⟨elements, ⟨rfl, sized⟩, reads⟩
    · rintro ⟨_, ⟨rfl, sized⟩, reads⟩
      exact ⟨sized, reads⟩
  | object members =>
    -- Nothing is found before the first member, so that each place has to be filled by its own.
    simp only [readRecord, readMembers_eq_ok distinct List.length_replicate, FillsPlaces, Holds,
      and_assoc, exists_and_left, exists_readsFrom_iff, List.length_map, List.getElem?_map,
      Option.map_eq_some_iff, Nat.zero_add]
    refine and_congr_right fun _ => and_congr_right fun _ => ?_
    constructor
    · rintro fill place _ ⟨name, here, rfl⟩
      have inside := (List.getElem?_eq_some_iff.mp here).1
      rw [← List.getElem?_replicate_of_lt inside]
      exact fill place name here
    · intro fill place name here
      have inside := (List.getElem?_eq_some_iff.mp here).1
      rw [List.getElem?_replicate_of_lt inside]
      exact fill place _ ⟨name, here, rfl⟩
  | null | bool _ | natural _ | otherNumber | string _ | broken =>
    simp [readRecord, Holds]

/-- A record of one part is read exactly if the value holds one that is. -/
theorem readRecord_single {value : JsonValue} {name : String} {result : α} :
    value.readRecord [name] read = .ok [some result] ↔
      ∃ part, value.Holds [name] [part] ∧ read 0 part = .ok result := by
  -- A single name cannot be repeated, and one result leaves room for one part only.
  have distinct : [name].Nodup := List.nodup_cons.mpr ⟨List.not_mem_nil, .nil⟩
  refine (@readRecord_eq_ok _ read _ [result] _ distinct).trans ⟨?_, ?_⟩
  · intro ⟨parts, holds, reads⟩
    match parts, reads with
    | [part], ⟨own, _⟩ => exact ⟨part, holds, own⟩
  · intro ⟨part, holds, own⟩
    exact ⟨[part], holds, own, trivial⟩

/-- A record of two parts is read exactly if the value holds two that are. -/
theorem readRecord_pair {value : JsonValue} {first second : String} {head last : α}
    (different : first ≠ second) :
    value.readRecord [first, second] read = .ok [some head, some last] ↔
      ∃ part other, value.Holds [first, second] [part, other] ∧ read 0 part = .ok head ∧
        read 1 other = .ok last := by
  -- Two different names have a part each, in the order of the names.
  have distinct : [first, second].Nodup := by simp [different]
  refine (@readRecord_eq_ok _ read _ [head, last] _ distinct).trans ⟨?_, ?_⟩
  · intro ⟨parts, holds, reads⟩
    match parts, reads with
    | [part, other], ⟨own, next, _⟩ => exact ⟨part, other, holds, own, next⟩
  · intro ⟨part, other, holds, own, next⟩
    exact ⟨[part, other], holds, own, next, trivial⟩

/-- A record that exceeds a limit has a part inside it that does. -/
theorem exists_of_readRecord_eq_limit {value : JsonValue}
    (failed : value.readRecord names read = .error (.limit exceeded)) :
    ∃ i part, part.Inside value ∧ read i part = .error (.limit exceeded) := by
  -- The failing part is an element or the content of a member, which both lie inside.
  cases value with
  | array elements =>
    obtain ⟨i, part, inside, here⟩ := exists_of_readPlaces_eq_limit failed
    exact ⟨i, part, .element .whole inside, here⟩
  | object members =>
    obtain ⟨i, member, inside, here⟩ := exists_of_readMembers_eq_limit failed
    exact ⟨i, member.2, .member .whole inside, here⟩
  | _ => cases failed

end Read

end Ssz.JsonValue
