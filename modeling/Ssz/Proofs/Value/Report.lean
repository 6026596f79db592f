import Ssz.Proofs.Value.Fault
import Ssz.Proofs.Value.Root

/-! Building trees of values reports the first fault of the value, at whatever depth it is. -/

namespace Ssz

/-- Serializing a scalar succeeds for the values of its type. -/
theorem Scalar.encode_of_fits {type : Scalar} {value : Value} (fits : type.fits value) :
    ∃ bytes, type.encode value = .ok bytes := by
  cases value with
  | bool bit =>
    obtain rfl : type = boolean := by simpa [Scalar.fits] using fits
    exact ⟨_, rfl⟩
  | uint number =>
    -- The number is checked against the width, once the type is known to be one of numbers.
    obtain ⟨notBoolean, small⟩ : type ≠ boolean ∧ number.toNat < 256 ^ type.byteLength := by
      simpa [Scalar.fits] using fits
    exact ⟨_, by rw [encode_uint notBoolean, if_pos small]⟩
  | uint256 bytes =>
    obtain rfl : type = uint256 := by simpa [Scalar.fits] using fits
    exact ⟨_, rfl⟩
  | _ => simp [Scalar.fits] at fits

/-- Serializing a scalar refuses every value that is not of its type, by the name of the type. -/
theorem Scalar.encode_of_not_fits {type : Scalar} {value : Value} (unfit : ¬ type.fits value) :
    type.encode value = .error (.typeMismatch (.kind (.scalar type))) := by
  -- A number is refused by truth values for its kind, and by integers for its size.
  cases value with
  | uint number =>
    by_cases isBoolean : type = boolean
    · subst isBoolean
      rfl
    · have large : ¬ number.toNat < 256 ^ type.byteLength := by
        simpa [Scalar.fits, isBoolean] using unfit
      rw [encode_uint isBoolean, if_neg large]
  | bool bit => cases type <;> first | rfl | simp [Scalar.fits] at unfit
  | uint256 bytes => cases type <;> first | rfl | simp [Scalar.fits] at unfit
  | _ => cases type <;> rfl

/-- A scalar has no parts, so it is at fault itself or not at all. -/
theorem Scalar.reports_encode (type : Scalar) (value : Value) :
    Reports (type.encode value) ((Schema.scalar type).faultAt value) := by
  -- What fits is written out, and what does not is refused with the name of the type.
  by_cases fits : type.fits value
  · obtain ⟨bytes, written⟩ := encode_of_fits fits
    rw [written]
    intro path
    cases path with
    | nil => simp [Schema.faultAt, Schema.fault?, fits]
    | cons index path => rfl
  · rw [encode_of_not_fits fits]
    exact .own (by simp [Schema.faultAt, Schema.fault?, fits])

namespace Schema

/-- The faults inside the part at an index of a value, if it has such a part. -/
def partFaults (schema : Schema) (value : Value) (index : Nat) (path : List Nat) :
    Option ViewError :=
  match schema.part? value index with
  | some (inner, part) => inner.faultAt part path
  | none => none

/-- A value without a fault of its own has just the faults inside its parts. -/
theorem faultAt_of_sound {schema : Schema} {value : Value} (sound : schema.fault? value = none) :
    schema.faultAt value = inParts (schema.partFaults value) := by
  funext path
  cases path with
  | nil => exact sound
  | cons index path => rfl

/-- The faults inside the parts of a sequence are those of its elements. -/
theorem partFaults_of_elements {schema element : Schema} {value : Value} {elements : List Value}
    (parts : ∀ index, schema.part? value index = elements[index]?.map (element, ·)) :
    schema.partFaults value = fun index path => elements[index]?.bind (element.faultAt · path) := by
  funext index path
  rw [partFaults, parts]
  cases elements[index]? <;> rfl

end Schema

/-- Building a content tree that has room for all elements reports the faults of the elements. -/
theorem Tree.reports_ofSequence {element : Schema} {elements : List Value} {depth : Nat}
    (shallow : depth < 64) (fits : element.elementChunks elements.length ≤ 2 ^ depth)
    (each : ∀ value, Reports (element.treeOf value) (element.faultAt value)) :
    Reports (ofSequence element element.treeOf elements depth)
      (inParts fun index path => elements[index]?.bind (element.faultAt · path)) := by
  cases own : element.scalar? with
  | some type =>
    obtain rfl := Schema.eq_scalar own
    simp only [ofSequence, own, Scalar.encodeAll, bind_assoc]
    -- Once all scalars are serialized, their bytes fit in the leaves.
    refine (Reports.mapM type.reports_encode elements).bind ?_
    intro pieces written
    have written := mapM_eq_ok.mp written
    have width := Scalar.length_flatten (Scalar.pieces_of_encode written).1
    simp only [Schema.elementChunks, own, written.length_eq, ← width] at fits
    exact ⟨_, ofPacked_eq_ok shallow fits⟩
  | none =>
    simp only [ofSequence, own]
    refine (Reports.mapM each elements).bind ?_
    intro nodes built
    simp only [Schema.elementChunks, own, (mapM_eq_ok.mp built).length_eq] at fits
    exact ⟨_, fill_eq_ok shallow fits⟩

/-- The faults of the payload of a union under its variant, the empty variant having none. -/
def payloadFaults : Option Schema → Option Value → List Nat → Option ViewError
  | some schema, some value => schema.faultAt value
  | _, _ => fun _ => none

/-- The payload of a union is its only part. -/
theorem Schema.partFaults_payload {variants : List (Option Schema)} {selector : UInt32}
    {variant : Option Schema} (found : variants[selector.toNat]? = some variant)
    (payload : Option Value) :
    (Schema.union variants).partFaults (.union selector payload) =
      fun index => if index = 0 then payloadFaults variant payload else fun _ => none := by
  funext index path
  -- A payload of the empty variant is not looked at, as it has no schema.
  cases payload with
  | none => cases index <;> cases variant <;> rfl
  | some value =>
    cases index with
    | zero => cases variant <;> simp [partFaults, part?, found, payloadFaults]
    | succ index => rfl

/-- A payload that is missing, or given for the empty variant, is refused. -/
theorem Schema.variantTree_mismatch {variants : List (Option Schema)} {selector : Nat}
    {variant : Option Schema} {payload : Option Value} (found : variants[selector]? = some variant)
    (mismatch : variant.isSome ≠ payload.isSome) :
    Schema.variantTree variants selector payload = .error (.typeMismatch .unionPayload) := by
  induction variants generalizing selector with
  | nil => cases found
  | cons first rest ih =>
    cases selector with
    | zero =>
      obtain rfl := Option.some.inj found
      cases first <;> cases payload <;> simp_all [Schema.variantTree]
    | succ selector =>
      -- The variants before the selected one are skipped.
      cases first <;> exact ih found

mutual

/-- Building the tree of a value succeeds for a value without faults, and else tells the first. -/
theorem Schema.reports_treeOf : (schema : Schema) → schema.Accepted → (value : Value) →
    Reports (schema.treeOf value) (schema.faultAt value)
  | .scalar type, _, value => (type.reports_encode value).bind fun _ _ => ⟨_, rfl⟩
  | .vector element length, accepted, value => by
    cases value with
    | sequence elements =>
      simp only [Schema.treeOf]
      split
      · rename_i other
        exact .own (by simp [Schema.faultAt, Schema.fault?, other])
      · rename_i sized
        have sized := not_not.mp sized
        rw [Schema.faultAt_of_sound (by simp [Schema.fault?, sized]),
          Schema.partFaults_of_elements fun _ => rfl]
        exact Tree.reports_ofSequence accepted.depth_lt (sized ▸ Schema.vector_fits element length)
          (Schema.reports_treeOf element accepted.1)
    | _ => exact .own rfl
  | .list element maxLength, accepted, value => by
    cases value with
    | sequence elements =>
      simp only [Schema.treeOf]
      split
      · rename_i long
        exact .own (by simp [Schema.faultAt, Schema.fault?, Nat.not_le.mpr long])
      · rename_i bounded
        have bounded := Nat.le_of_not_lt bounded
        rw [Schema.faultAt_of_sound (by simp [Schema.fault?, bounded]),
          Schema.partFaults_of_elements fun _ => rfl]
        exact (Tree.reports_ofSequence accepted.depth_lt (Schema.list_fits element bounded)
          (Schema.reports_treeOf element accepted.1)).bind fun _ _ => ⟨_, rfl⟩
    | _ => exact .own rfl
  | .bitvector length, accepted, value => by
    cases value with
    | bits bits =>
      simp only [Schema.treeOf]
      split
      · rename_i other
        exact .own (by simp [Schema.faultAt, Schema.fault?, other])
      · rename_i sized
        have sized := not_not.mp sized
        -- Bits are no parts that could be at fault.
        rw [Tree.ofPacked_packBits accepted.depth_lt (sized ▸ Schema.bitvector_fits length),
          Schema.faultAt_of_sound (by simp [Schema.fault?, sized])]
        exact .nil _
    | _ => exact .own rfl
  | .bitlist maxLength, accepted, value => by
    cases value with
    | bits bits =>
      simp only [Schema.treeOf]
      split
      · rename_i long
        exact .own (by simp [Schema.faultAt, Schema.fault?, Nat.not_le.mpr long])
      · rename_i bounded
        have bounded := Nat.le_of_not_lt bounded
        rw [Tree.ofPacked_packBits accepted.depth_lt (Schema.bitlist_fits bounded),
          Schema.faultAt_of_sound (by simp [Schema.fault?, bounded])]
        exact .nil _
    | _ => exact .own rfl
  | .container fields, accepted, value => by
    cases value with
    | container members =>
      simp only [Schema.treeOf]
      split
      · rename_i other
        exact .own (by simp [Schema.faultAt, Schema.fault?, other])
      · rename_i counted
        have counted := not_not.mp counted
        rw [Schema.faultAt_of_sound (by simp [Schema.fault?, counted])]
        refine (Schema.reports_treesOf fields accepted.1 members).bind ?_
        -- The trees of all members are filled in side by side.
        intro nodes built
        have fits := Schema.container_fits fields
        rw [← counted, ← Schema.length_treesOf counted built] at fits
        exact ⟨_, Tree.fill_eq_ok accepted.depth_lt fits⟩
    | _ => exact .own rfl
  | .union variants, accepted, value => by
    cases value with
    | union selector payload =>
      simp only [Schema.treeOf]
      split
      · rename_i outside
        exact .own (by simp [Schema.faultAt, Schema.fault?, outside])
      · rename_i within
        have within := Nat.lt_of_not_le within
        have found := List.getElem?_eq_getElem within
        by_cases given : variants[selector.toNat].isSome = payload.isSome
        · rw [Schema.faultAt_of_sound (by simp [Schema.fault?, found, given])]
          have inner := Schema.reports_variantTree variants accepted.1 _ _ payload found given
          rw [Schema.partFaults_payload found]
          exact inner.only
        · rw [Schema.variantTree_mismatch found given]
          exact .own (by simp [Schema.faultAt, Schema.fault?, found, given])
    | _ => exact .own rfl

/-- Building the trees of members tells the first fault of a member, from left to right. -/
theorem Schema.reports_treesOf : (fields : List Field) → Schema.AcceptedFields fields →
    (members : List Value) → Reports (Schema.treesOf fields members)
      (inParts ((Schema.container fields).partFaults (.container members)))
  | [], _, _ => .nil _
  | ⟨name, schema⟩ :: fields, _, [] => by
    -- Without members there is nothing that could be at fault.
    have none : (Schema.container (⟨name, schema⟩ :: fields)).partFaults (.container []) =
        fun _ _ => none := by
      funext index path
      simp [Schema.partFaults, Schema.part?]
    rw [none]
    exact .nil _
  | ⟨_, schema⟩ :: fields, accepted, member :: members =>
    .cons (Schema.reports_treeOf schema accepted.1 member)
      (Schema.reports_treesOf fields accepted.2 members)

/-- Building the tree of a payload tells the first fault of the payload under its variant. -/
theorem Schema.reports_variantTree : (variants : List (Option Schema)) →
    Schema.AcceptedVariants variants → (selector : Nat) → (variant : Option Schema) →
      (payload : Option Value) → variants[selector]? = some variant →
        variant.isSome = payload.isSome →
          Reports (Schema.variantTree variants selector payload) (payloadFaults variant payload)
  -- A payload just where the variant has a schema: the other two pairs are excluded.
  | some schema :: _, accepted, 0, _, some value, found, _ => by
    obtain rfl := Option.some.inj found
    exact Schema.reports_treeOf schema accepted.1 value
  | none :: _, _, 0, _, none, found, _ => by
    obtain rfl := Option.some.inj found
    exact fun _ => rfl
  | some _ :: rest, accepted, selector + 1, variant, payload, found, given =>
    Schema.reports_variantTree rest accepted.2 selector variant payload found given
  | none :: rest, accepted, selector + 1, variant, payload, found, given =>
    Schema.reports_variantTree rest accepted selector variant payload found given
  | some _ :: _, _, 0, _, none, found, given => by
    obtain rfl := Option.some.inj found
    cases given
  | none :: _, _, 0, _, some _, found, given => by
    obtain rfl := Option.some.inj found
    cases given

end

end Ssz
