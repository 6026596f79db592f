import Ssz.Json.Basic
import Ssz.Proofs.Json.Token

/-! JSON values: the text written for a whole value is read as that value. -/

namespace Ssz.JsonValue

open JsonToken (Legible)

section Reading

/-- Reading goes on from where a step leads. -/
theorem readOn_of_step {progress next : Progress} {token : JsonToken}
    (stepped : step progress token = some next) (rest : List JsonToken) :
    readOn progress (token :: rest) = readOn next rest := by
  rw [readOn, stepped]

/-- The first token of a value is not one that closes an array or an object. -/
theorem exists_tokens (value : JsonValue) : ∃ token rest, value.tokens = token :: rest ∧
    token ≠ .closeBracket ∧ token ≠ .closeBrace := by
  cases value <;> exact ⟨_, _, rfl, nofun, nofun⟩

/-- In an array that has just been opened, a value is read like any first element. -/
theorem readOn_arrayOpened (value : JsonValue) (outer : Enclosing) (rest : List JsonToken) :
    readOn (.arrayOpened outer) (value.tokens ++ rest) =
      readOn (.value (.array [] outer)) (value.tokens ++ rest) := by
  -- No value begins with the bracket that would close the array, and all other tokens are treated
  -- alike.
  obtain ⟨token, more, same, open_, _⟩ := value.exists_tokens
  rw [same, List.cons_append, readOn, readOn]
  have opened : step (.arrayOpened outer) token = step (.value (.array [] outer)) token := by
    cases token <;> first | rfl | exact absurd rfl open_
  rw [opened]
  rfl

mutual

/-- Reading the tokens of a whole value completes it. -/
theorem readOn_tokens : (value : JsonValue) → value.isWhole = true → (enclosing : Enclosing) →
    (rest : List JsonToken) →
      readOn (.value enclosing) (value.tokens ++ rest) = readOn (.complete value enclosing) rest
  | .null, _, _, _ | .bool _, _, _, _ | .natural _, _, _, _ | .otherNumber, _, _, _
  | .string _, _, _, _ => rfl
  | .array [], _, _, _ | .object [], _, _, _ => rfl
  | .array (element :: elements), whole, enclosing, rest => by
    have first : ∃ others, elementTokens (element :: elements) = element.tokens ++ others := by
      cases elements with
      | nil => exact ⟨[], (List.append_nil _).symm⟩
      | cons next elements => exact ⟨_, rfl⟩
    obtain ⟨others, same⟩ := first
    have read := readOn_elementTokens (element :: elements) (List.cons_ne_nil _ _) whole []
      enclosing rest
    -- The opened array goes on as one in which a value has to follow.
    rw [same, List.append_assoc, ← readOn_arrayOpened, ← List.append_assoc, ← same] at read
    rw [tokens, List.append_assoc]
    exact read
  | .object (member :: members), whole, enclosing, rest => by
    have read := readOn_memberTokens (member :: members) (List.cons_ne_nil _ _) whole [] enclosing
      rest
    rw [tokens, List.append_assoc]
    -- The first key is read in the opened object as it is behind a comma.
    obtain ⟨key, value⟩ := member
    cases members with
    | nil => exact read
    | cons next members => exact read
  | .broken, whole, _, _ => nomatch whole

/-- Reading the tokens of elements and the end of their array completes the array. -/
theorem readOn_elementTokens : (elements : List JsonValue) → elements ≠ [] →
    elementsWhole elements = true → (before : List JsonValue) → (outer : Enclosing) →
      (rest : List JsonToken) →
        readOn (.value (.array before outer)) (elementTokens elements ++ .closeBracket :: rest) =
          readOn (.complete (.array (before.reverse ++ elements)) outer) rest
  -- What was read before is kept in reverse, and each element goes in front of it.
  | [], nonempty, _, _, _, _ => absurd rfl nonempty
  | [last], _, whole, before, outer, rest => by
    rw [elementsWhole, Bool.and_eq_true] at whole
    rw [elementTokens, readOn_tokens last whole.1, readOn_of_step rfl, List.reverse_cons]
  | element :: next :: others, _, whole, before, outer, rest => by
    rw [elementsWhole, Bool.and_eq_true] at whole
    have later := readOn_elementTokens (next :: others) (List.cons_ne_nil _ _) whole.2
      (element :: before) outer rest
    rw [List.reverse_cons, List.append_assoc, List.singleton_append] at later
    rw [elementTokens, List.append_assoc, readOn_tokens element whole.1]
    exact later
    all_goals exact nofun

/-- Reading the tokens of members and the end of their object completes the object. -/
theorem readOn_memberTokens : (members : List (Option String × JsonValue)) → members ≠ [] →
    membersWhole members = true → (before : List (Option String × JsonValue)) →
      (outer : Enclosing) → (rest : List JsonToken) →
        readOn (.key before outer) (memberTokens members ++ .closeBrace :: rest) =
          readOn (.complete (.object (before.reverse ++ members)) outer) rest
  -- Each key is kept aside until its value is complete, and then both join the members before.
  | [], nonempty, _, _, _, _ => absurd rfl nonempty
  | [(key, last)], _, whole, before, outer, rest => by
    rw [membersWhole, Bool.and_eq_true] at whole
    have own := readOn_tokens last whole.1 (.object before key outer) (.closeBrace :: rest)
    rw [readOn_of_step rfl, List.reverse_cons] at own
    exact own
  | (key, value) :: next :: others, _, whole, before, outer, rest => by
    rw [membersWhole, Bool.and_eq_true] at whole
    have own := readOn_tokens value whole.1 (.object before key outer)
      (.comma :: (memberTokens (next :: others) ++ .closeBrace :: rest))
    have later := readOn_memberTokens (next :: others) (List.cons_ne_nil _ _) whole.2
      ((key, value) :: before) outer rest
    rw [List.reverse_cons, List.append_assoc, List.singleton_append] at later
    rw [readOn_of_step rfl, later] at own
    rw [memberTokens, List.cons_append, List.cons_append, List.append_assoc]
    exact own
    all_goals exact nofun

end

end Reading

section Writing

/-- Tokens that a number may stand before. -/
def Following (tokens : List JsonToken) : Prop :=
  Legible tokens ∧ ∀ next ∈ tokens.head?, next.isNumber = false

/-- A token may stand before legible ones, a number only where no other number follows. -/
theorem legible_cons {token : JsonToken} {rest : List JsonToken} (sound : token ≠ .fault)
    (legible : Legible rest)
    (apart : token.isNumber = true → ∀ next ∈ rest.head?, next.isNumber = false) :
    Legible (token :: rest) := by
  refine ⟨List.not_mem_cons_of_ne_of_not_mem sound.symm legible.1, ?_⟩
  exact List.isChain_cons.mpr ⟨fun next first number => apart number next first, legible.2⟩

/-- What is no number itself may stand before legible tokens, and behind a number. -/
theorem following_cons (token : JsonToken) {rest : List JsonToken} (sound : token ≠ .fault)
    (other : token.isNumber = false) (legible : Legible rest) : Following (token :: rest) := by
  -- The token is not a number, so it puts no condition on what comes next.
  refine ⟨legible_cons sound legible fun number => ?_, ?_⟩
  · rw [other] at number
    cases number
  · intro next first
    obtain rfl := Option.some.inj first
    exact other

mutual

/-- The tokens of a whole value are legible before what may follow a number. -/
theorem legible_tokens : (value : JsonValue) → value.isWhole = true → {rest : List JsonToken} →
    Following rest → Legible (value.tokens ++ rest)
  -- Only a number restricts what follows it, and a bracket or a brace stands behind each last one.
  | .null, _, _, following | .bool _, _, _, following | .natural _, _, _, following
  | .otherNumber, _, _, following | .string _, _, _, following =>
    legible_cons nofun following.1 fun _ => following.2
  | .array elements, whole, rest, following => by
    have closed := following_cons .closeBracket nofun rfl following.1
    have inner := legible_elementTokens elements whole closed
    rw [tokens, List.append_assoc]
    exact (following_cons .openBracket nofun rfl inner).1
  | .object members, whole, rest, following => by
    have closed := following_cons .closeBrace nofun rfl following.1
    have inner := legible_memberTokens members whole closed
    rw [tokens, List.append_assoc]
    exact (following_cons .openBrace nofun rfl inner).1
  | .broken, whole, _, _ => nomatch whole

/-- The tokens of the elements of an array are legible. -/
theorem legible_elementTokens : (elements : List JsonValue) → elementsWhole elements = true →
    {rest : List JsonToken} → Following rest → Legible (elementTokens elements ++ rest)
  -- A comma or the closing bracket stands behind each element.
  | [], _, _, following => following.1
  | [last], whole, _, following => by
    rw [elementsWhole, Bool.and_eq_true] at whole
    exact legible_tokens last whole.1 following
  | element :: next :: others, whole, rest, following => by
    rw [elementsWhole, Bool.and_eq_true] at whole
    have later := legible_elementTokens (next :: others) whole.2 following
    rw [elementTokens, List.append_assoc]
    · exact legible_tokens element whole.1 (following_cons .comma nofun rfl later)
    · exact nofun

/-- The tokens of the members of an object are legible. -/
theorem legible_memberTokens : (members : List (Option String × JsonValue)) →
    membersWhole members = true → {rest : List JsonToken} → Following rest →
      Legible (memberTokens members ++ rest)
  -- A key is no number and neither is a colon, so only the values matter.
  | [], _, _, following => following.1
  | [(key, last)], whole, rest, following => by
    rw [membersWhole, Bool.and_eq_true] at whole
    have own := legible_tokens last whole.1 following
    exact (following_cons (.string key) nofun rfl (following_cons .colon nofun rfl own).1).1
  | (key, value) :: next :: others, whole, rest, following => by
    rw [membersWhole, Bool.and_eq_true] at whole
    have later := legible_memberTokens (next :: others) whole.2 following
    have own := legible_tokens value whole.1 (following_cons .comma nofun rfl later)
    rw [memberTokens, List.cons_append, List.cons_append, List.append_assoc]
    · exact (following_cons (.string key) nofun rfl (following_cons .colon nofun rfl own).1).1
    · exact nofun

end

end Writing

/-- The text of a whole value is read as that value, up to its end. -/
theorem ofText_toText {value : JsonValue} (whole : value.isWhole = true) :
    ofText value.toText = ⟨value, true⟩ := by
  -- Nothing follows the last token, so the text is complete with its value.
  have legible := legible_tokens value whole ⟨⟨List.not_mem_nil, .nil⟩, nofun⟩
  have read := readOn_tokens value whole .nothing []
  rw [List.append_nil] at legible read
  rw [ofText, toText, JsonToken.ofText_toText legible, read]
  rfl

end Ssz.JsonValue
