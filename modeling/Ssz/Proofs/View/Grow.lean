import Ssz.Proofs.View.Append
import Ssz.Proofs.View.OfValue

/-! Growing lists and bitlists: the view that was appended to is the view of the longer value. -/

namespace Ssz

/-- The number of elements or bits of a value. -/
def Value.count : Value → Nat
  | sequence elements => elements.length
  | .bits flags => flags.length
  | _ => 0

/-- A sequence with more elements behind its own, or bits with more truth values behind them. -/
def Value.extend : Value → List Value → Value
  | sequence elements, more => sequence (elements ++ more)
  | .bits flags, more => .bits (flags ++ more.filterMap asBool?)
  | value, _ => value

/-- Nothing more changes nothing. -/
@[simp] theorem Value.extend_nil (value : Value) : value.extend [] = value := by
  cases value <;> simp [extend]

/-- What is put behind a value at two times may be put there at once. -/
@[simp] theorem Value.extend_extend (value : Value) (first second : List Value) :
    (value.extend first).extend second = value.extend (first ++ second) := by
  cases value <;> simp [extend]

namespace Schema

/-- The schema of the elements and the greatest length, for the schemas whose values grow. -/
def growth? : Schema → Option (Schema × UInt64)
  | .list element maxLength => some (element, maxLength)
  | .bitlist maxLength => some (.scalar .boolean, maxLength)
  | _ => none

variable {schema element : Schema} {max : UInt64} {elements : Value}

/-- The elements of a schema that was accepted are of an accepted schema. -/
theorem Accepted.element_of_growth (accepted : schema.Accepted)
    (grows : schema.growth? = some (element, max)) : element.Accepted := by
  -- Only lists and bitlists grow, and a bit is always an accepted schema.
  cases schema with
  | list own length =>
    cases grows
    exact accepted.1
  | bitlist length =>
    cases grows
    trivial
  | _ => cases grows

/-- A value that grows has as many elements as its schema allows, at most. -/
theorem Inhabits.count_le (grows : schema.growth? = some (element, max))
    (inhabits : schema.Inhabits elements) : elements.count ≤ max.toNat := by
  -- Only lists and bitlists grow, and both bound their lengths.
  cases inhabits with
  | list bounded each =>
    cases grows
    exact bounded
  | bitlist bounded =>
    cases grows
    exact bounded
  | _ => cases grows

/-- A value with one more element is one longer, and inhabits the schema if there was room. -/
theorem Inhabits.extend (grows : schema.growth? = some (element, max))
    (inhabits : schema.Inhabits elements) (room : elements.count < max.toNat) {value : Value}
    (member : element.Inhabits value) :
    schema.Inhabits (elements.extend [value]) ∧
      (elements.extend [value]).count = elements.count + 1 := by
  cases inhabits with
  | @list _ _ members bounded each =>
    cases grows
    have longer : (members ++ [value]).length = members.length + 1 := by simp
    refine ⟨.list (by rw [longer]; exact room) ?_, longer⟩
    intro other found
    rcases List.mem_append.mp found with old | new
    · exact each other old
    · exact List.mem_singleton.mp new ▸ member
  | @bitlist _ flags bounded =>
    cases grows
    -- Only truth values inhabit the schema of bits.
    cases member with
    | bool bit =>
      have longer : (Value.bits flags).extend [.bool bit] = .bits (flags ++ [bit]) := rfl
      rw [longer]
      exact ⟨.bitlist (by simpa [Value.count] using Nat.succ_le_of_lt room), by simp [Value.count]⟩
    | uint integer small => exact absurd rfl integer
  | _ => cases grows

end Schema

namespace View

/-- Appending checks that there is room, then checks the element, and only then grows the list. -/
theorem append_eq_checks {schema element : Schema} {content : Tree} {count : Nat} {max : UInt64}
    {slot : Slot} {value : Value} {longer : Except ViewError View}
    (limited : (⟨schema, content.withLength (UInt64.ofNat count)⟩ : View).maxLength = .ok max)
    (sized : count ≤ max.toNat)
    (found : count < max.toNat →
      schema.slotAt (UInt64.ofNat count) (some (UInt64.ofNat count + 1)) = .ok slot)
    (typed : slot.schema = element)
    (grown : count < max.toNat → ∀ node, element.treeOf value = .ok node →
      (⟨schema, content.withLength (UInt64.ofNat count)⟩ : View).append value = longer) :
    (⟨schema, content.withLength (UInt64.ofNat count)⟩ : View).append value = (do
      if count = max.toNat then throw (.lengthExceedsMax (count + 1) max.toNat)
      let _ ← element.treeOf value
      longer) := by
  subst typed
  -- The length is stored as a word, which is large enough for every count up to the maximum.
  have stored := toNat_ofNat_of_le_word sized
  by_cases full : count = max.toNat
  · have limit : max ≤ UInt64.ofNat count := by
      rw [UInt64.le_iff_toNat_le, stored]
      exact Nat.le_of_eq full.symm
    rw [append_full value limited limit, stored, if_pos full]
    rfl
  · have room := Nat.lt_of_le_of_ne sized full
    rw [if_neg full]
    cases made : slot.schema.treeOf value with
    | error fault => exact append_unbuilt limited (not_max_le room) (found room) made
    | ok node => exact grown room node made

/-- An inhabitant appended to a list with room gives the view of the longer list. -/
theorem append_list_eq_ofValue {element : Schema} {max : UInt64} {members : List Value}
    {content node : Tree} {value : Value} (accepted : (Schema.list element max).Accepted)
    (room : members.length < max.toNat)
    (holds : Tree.HoldsElements element element.Represents (members.map element.normal)
      (Schema.list element max).depth content)
    (made : element.treeOf value = .ok node)
    (inhabits : (Schema.list element max).Inhabits (.sequence (members ++ [value]))) :
    (⟨.list element max, content.withLength (UInt64.ofNat members.length)⟩ : View).append value =
      ofValue (.list element max) (.sequence (members ++ [value])) := by
  have counted : (members.map element.normal).length = members.length := List.length_map _
  obtain ⟨refilled, more, appended⟩ := append_list accepted (counted ▸ room) holds made
  rw [counted] at appended
  rw [appended]
  refine (ofValue_of_normal accepted inhabits ?_).symm
  -- The new element is held in its normal form, as the others are.
  refine ⟨members.map element.normal ++ [element.normal value], refilled, by simp [Schema.normal],
    by simpa using Nat.succ_le_of_lt room, more, by simp⟩

/-- A truth value appended to a bitlist with room gives the view of the longer bitlist. -/
theorem append_bitlist_eq_ofValue {max : UInt64} {flags : List Bool} (bit : Bool)
    (accepted : (Schema.bitlist max).Accepted) (room : flags.length < max.toNat) :
    (⟨.bitlist max, (Tree.ofBytes (Schema.bitlist max).depth (packBits flags)).withLength
      (UInt64.ofNat flags.length)⟩ : View).append (.bool bit) =
        ofValue (.bitlist max) (.bits (flags ++ [bit])) := by
  rw [append_bitlist bit accepted room]
  exact (ofValue_of_represents accepted
    ⟨flags ++ [bit], rfl, by simpa using Nat.succ_le_of_lt room, by simp⟩).symm

/-- A view of a list or bitlist that is made of a value, with its elements and its maximum. -/
structure ListOf (view : View) (element : Schema) (max : UInt64) (elements : Value) : Prop where
  accepted : view.schema.Accepted
  grows : view.schema.growth? = some (element, max)
  built : ofValue view.schema elements = .ok view

/-- Only lists and bitlists are appended to. -/
theorem growth_of_append {view longer : View} {value : Value}
    (done : view.append value = .ok longer) :
    ∃ element max, view.schema.growth? = some (element, max) := by
  obtain ⟨schema, tree⟩ := view
  cases schema with
  | list element max => exact ⟨element, max, rfl⟩
  | bitlist max => exact ⟨.scalar .boolean, max, rfl⟩
  | _ => cases done

/-- Extending fails with the error of the first value that is refused. -/
theorem extend_eq_error {view : View} {more : List Value} {fault : ViewError} :
    view.extend more = .error fault ↔ ∃ before value after longer,
      more = before ++ value :: after ∧ view.extend before = .ok longer ∧
        longer.append value = .error fault := by
  constructor
  · intro failed
    -- Either the first value is refused, or it is taken and one of the rest is refused.
    induction more generalizing view with
    | nil => cases failed
    | cons value rest ih =>
      rw [View.extend, List.foldlM_cons] at failed
      cases first : view.append value with
      | error own =>
        rw [first] at failed
        obtain rfl := Except.error.inj failed
        exact ⟨[], value, rest, view, rfl, rfl, first⟩
      | ok next =>
        rw [first] at failed
        obtain ⟨before, other, after, longer, rfl, taken, refused⟩ := ih failed
        refine ⟨value :: before, other, after, longer, rfl, ?_, refused⟩
        rw [View.extend, List.foldlM_cons, first]
        exact taken
  · rintro ⟨before, value, after, longer, rfl, taken, refused⟩
    -- Whatever comes after the refused value is not looked at.
    have stopped : view.extend (before ++ value :: after) =
        (view.extend before >>= fun next => next.extend (value :: after)) := List.foldlM_append
    rw [stopped, taken, ok_bind, View.extend, List.foldlM_cons, refused]
    rfl

namespace ListOf

variable {view longer : View} {element : Schema} {max : UInt64} {elements value : Value}
  {more : List Value}

/-- A list is made of an inhabitant of its schema. -/
theorem inhabits (list : view.ListOf element max elements) : view.schema.Inhabits elements :=
  (ofValue_ok_iff list.accepted).mp ⟨view, list.built⟩

/-- A list has as many elements as its maximum allows, at most. -/
theorem count_le (list : view.ListOf element max elements) : elements.count ≤ max.toNat :=
  list.inhabits.count_le list.grows

/-- The elements of a list have a tree exactly if they inhabit their schema. -/
theorem treeOf_ok_iff (list : view.ListOf element max elements) :
    (∃ node, element.treeOf value = .ok node) ↔ element.Inhabits value :=
  Schema.treeOf_ok_iff (list.accepted.element_of_growth list.grows)

/--
Appending to a list checks that there is room, checks the element, and then gives the view of the
longer value.
-/
theorem append_eq (list : view.ListOf element max elements) (value : Value) :
    view.append value = (do
      if elements.count = max.toNat then throw (.lengthExceedsMax (elements.count + 1) max.toNat)
      let _ ← element.treeOf value
      ofValue view.schema (elements.extend [value])) := by
  have represents := (represents_of_ofValue list.accepted list.built).2
  have inhabits := list.inhabits
  -- With room for an inhabitant, the longer value is an inhabitant too.
  have longer (room : elements.count < max.toNat) (node : Tree)
      (made : element.treeOf value = .ok node) : view.schema.Inhabits (elements.extend [value]) :=
    (inhabits.extend list.grows room (list.treeOf_ok_iff.mp ⟨node, made⟩)).1
  obtain ⟨accepted, grows, -⟩ := list
  obtain ⟨schema, tree⟩ := view
  cases inhabits with
  | @list _ _ members bounded each =>
    cases grows
    -- The tree holds the normal forms of the elements, which are as many.
    obtain ⟨normals, content, same, sized, holds, rfl⟩ := represents
    obtain rfl : members.map element.normal = normals := Value.sequence.inj same
    rw [List.length_map]
    exact append_eq_checks rfl bounded (slotAt_list_next · element)
      (Schema.schema_sequenceSlot _ _ _) fun room node made =>
        append_list_eq_ofValue accepted room holds made (longer room node made)
  | @bitlist _ flags bounded =>
    cases grows
    obtain ⟨bits, same, sized, rfl⟩ := represents
    obtain rfl : flags = bits := Value.bits.inj same
    refine append_eq_checks rfl bounded slotAt_bitlist_next rfl fun room node made => ?_
    -- Only truth values have a tree as a bit.
    cases value with
    | bool bit => exact append_bitlist_eq_ofValue bit accepted room
    | _ => cases made
  | _ => cases grows

/-- A list at its greatest length refuses every value, whatever it is. -/
theorem append_of_full (list : view.ListOf element max elements)
    (full : elements.count = max.toNat) (value : Value) :
    view.append value = .error (.lengthExceedsMax (elements.count + 1) max.toNat) := by
  rw [list.append_eq, if_pos full]
  rfl

/-- A list with room refuses a value that does not inhabit its elements, for its own fault. -/
theorem append_of_stranger (list : view.ListOf element max elements)
    (room : elements.count < max.toNat) (stranger : ¬ element.Inhabits value) :
    ∃ fault, element.treeOf value = .error fault ∧ view.append value = .error fault := by
  rw [list.append_eq, if_neg (Nat.ne_of_lt room)]
  cases made : element.treeOf value with
  | error fault => exact ⟨fault, rfl, rfl⟩
  | ok node => exact absurd (list.treeOf_ok_iff.mp ⟨node, made⟩) stranger

/-- A list with room takes every inhabitant of its elements. -/
theorem append_of_inhabits (list : view.ListOf element max elements)
    (room : elements.count < max.toNat) (member : element.Inhabits value) :
    ∃ longer, view.append value = .ok longer := by
  -- Neither check fails, and the longer value is an inhabitant that has a view.
  obtain ⟨node, made⟩ := list.treeOf_ok_iff.mpr member
  have inhabits := (list.inhabits.extend list.grows room member).1
  rw [list.append_eq, if_neg (Nat.ne_of_lt room), made]
  exact (ofValue_ok_iff list.accepted).mpr inhabits

/-- What was appended had room and inhabits the elements, and the list is one element longer. -/
theorem of_append (list : view.ListOf element max elements)
    (done : view.append value = .ok longer) :
    elements.count < max.toNat ∧ element.Inhabits value ∧ longer.schema = view.schema ∧
      longer.ListOf element max (elements.extend [value]) := by
  -- Both checks were passed, since otherwise nothing would have been appended.
  rw [list.append_eq] at done
  by_cases full : elements.count = max.toNat
  · rw [if_pos full] at done
    cases done
  · rw [if_neg full] at done
    obtain ⟨node, made, built⟩ := bind_eq_ok.mp done
    have same := (represents_of_ofValue list.accepted built).1
    refine ⟨Nat.lt_of_le_of_ne list.count_le full, list.treeOf_ok_iff.mp ⟨node, made⟩, same, ?_⟩
    exact ⟨same ▸ list.accepted, same ▸ list.grows, same ▸ built⟩

/-- A list with room for inhabitants of its elements takes all of them. -/
theorem extend_of_fits (list : view.ListOf element max elements)
    (fits : elements.count + more.length ≤ max.toNat)
    (each : ∀ value ∈ more, element.Inhabits value) :
    ∃ longer, view.extend more = .ok longer := by
  induction more generalizing view elements with
  | nil => exact ⟨view, rfl⟩
  | cons value rest ih =>
    rw [List.length_cons] at fits
    have member := each value List.mem_cons_self
    have room : elements.count < max.toNat := by omega
    obtain ⟨next, first⟩ := list.append_of_inhabits room member
    -- The rest goes on from the list that has one element more and one place less.
    obtain ⟨_, _, _, more⟩ := list.of_append first
    have counted := (list.inhabits.extend list.grows room member).2
    obtain ⟨longer, done⟩ := ih more (by rw [counted]; omega)
      (fun other later => each other (List.mem_cons_of_mem _ later))
    refine ⟨longer, ?_⟩
    rw [View.extend, List.foldlM_cons, first]
    exact done

/-- What a list was extended with had room and inhabits the elements, and is behind the old ones. -/
theorem of_extend (list : view.ListOf element max elements)
    (done : view.extend more = .ok longer) :
    elements.count + more.length ≤ max.toNat ∧ (∀ value ∈ more, element.Inhabits value) ∧
      longer.schema = view.schema ∧ longer.ListOf element max (elements.extend more) := by
  induction more generalizing view elements with
  | nil =>
    obtain rfl := Except.ok.inj done
    exact ⟨list.count_le, nofun, rfl, by rwa [Value.extend_nil]⟩
  | cons value rest ih =>
    rw [View.extend, List.foldlM_cons] at done
    obtain ⟨next, first, later⟩ := bind_eq_ok.mp done
    obtain ⟨room, member, same, more⟩ := list.of_append first
    have counted := (list.inhabits.extend list.grows room member).2
    -- The list in between has one element more, and the rest is put behind that.
    obtain ⟨fits, each, kept, final⟩ := ih more later
    rw [Value.extend_extend] at final
    rw [counted] at fits
    refine ⟨by rw [List.length_cons]; omega, ?_, kept.trans same, final⟩
    intro other found
    rcases List.mem_cons.mp found with rfl | found
    · exact member
    · exact each other found

end ListOf

end View

end Ssz
