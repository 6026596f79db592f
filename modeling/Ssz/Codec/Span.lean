import Ssz.Error
import Ssz.Schema.Size

/-! Offset tables: the spans of bytes that offsets cut a serialization into. -/

namespace Ssz

/-- The bytes of an input from a start up to, but not including, a stop. -/
structure Span where
  start : Nat
  stop : Nat
  deriving DecidableEq, Repr

/-- The bytes of a span, which has to lie within the input. -/
def Span.read (span : Span) (bytes : Bytes) : Except DecodeError Bytes :=
  if span.start ≤ span.stop ∧ span.stop ≤ bytes.length then
    .ok (bytes.slice span.start span.stop)
  else .error (.limit (.outsideInput span.start span.stop bytes.length))

/-- The bytes of spans whose starts do not decrease, cut from an input that begins at a position. -/
def cutSpans (position : Nat) (bytes : Bytes) : List Span → List Bytes
  | [] => []
  | span :: rest =>
    -- What lies before this span is not needed by those that follow it.
    let ahead := bytes.drop (span.start - position)
    ahead.take (span.stop - span.start) :: cutSpans span.start ahead rest

/-- Cutting in one pass gives the same bytes as cutting every span out of the whole input. -/
theorem cutSpans_drop (bytes : Bytes) (spans : List Span) (position : Nat)
    (ordered : spans.Pairwise fun first second => first.start ≤ second.start)
    (ahead : ∀ span ∈ spans, position ≤ span.start) :
    cutSpans position (bytes.drop position) spans
      = spans.map fun span => bytes.slice span.start span.stop := by
  induction spans generalizing position with
  | nil => rfl
  | cons span rest ih =>
    obtain ⟨first, later⟩ := List.pairwise_cons.mp ordered
    -- Skipping to the start of this span leaves just what the input holds from there on.
    have reached : (bytes.drop position).drop (span.start - position) = bytes.drop span.start := by
      rw [List.drop_drop, Nat.add_sub_cancel' (ahead span (by simp))]
    simp only [cutSpans, reached, List.map_cons, Bytes.slice]
    exact congrArg _ (ih span.start later first)

/-- The four-byte number at a position. -/
def readOffset (bytes : Bytes) (position : Nat) : Except DecodeError Nat :=
  let digits := bytes.slice position (position + bytesPerOffset)
  if digits.length = bytesPerOffset then .ok (ofLittleEndian digits)
  else .error (.limit (.outsideInput position (position + bytesPerOffset) bytes.length))

/-- The four-byte numbers that an input begins with. -/
def readTable : (count : Nat) → Bytes → Except DecodeError (List Nat)
  | 0, _ => .ok []
  | count + 1, bytes => do
    let offset ← readOffset bytes 0
    return offset :: (← readTable count (bytes.drop bytesPerOffset))

/-- How many elements a sequence has to have. -/
inductive Count where
  | exactly (length : Nat)
  | atMost (max : Nat)
  deriving DecidableEq, Repr

/-- Checks a number of elements against what is asked for. -/
def Count.check (expected : Count) (count : Nat) : Except DecodeError Unit :=
  match expected with
  | atMost max => if max < count then .error (.lengthExceedsMax count max) else .ok ()
  | exactly length =>
    -- A vector of the wrong length shows as an offset table of the wrong length.
    if count = length then .ok ()
    else .error (.invalidOffset (count * bytesPerOffset) .tableLength)

/-- The first offset that lies before the one it follows. -/
def firstDecrease? : List Nat → Option Nat
  | first :: second :: rest =>
    if second < first then some second else firstDecrease? (second :: rest)
  | _ => none

/-- The span from each offset to the next, the last one running to the end of the input. -/
def spansBetween (length : Nat) : List Nat → List Span
  | [] => []
  | [last] => [⟨last, length⟩]
  | start :: next :: rest => ⟨start, next⟩ :: spansBetween length (next :: rest)

/-- The spans that offsets cut the input into, which begin where the fixed part ends. -/
def spansOfOffsets (offsets : List Nat) (fixedEnd length : Nat) : Except DecodeError (List Span) :=
  if offsets.head?.any (· ≠ fixedEnd) then
    -- The first offset leaves no gap after the fixed part.
    .error (.invalidOffset (offsets.headD 0) .notAtFixedEnd)
  else
    match firstDecrease? offsets with
    | some offset => .error (.invalidOffset offset .decreasing)
    | none =>
      -- The others do not decrease, so only the last one can pass the end.
      if offsets.getLast?.any (length < ·) then
        .error (.invalidOffset (offsets.getLastD 0) .pastEnd)
      else .ok (spansBetween length offsets)

/-- The spans of a sequence of variable-size elements, cut by the table it begins with. -/
def variableSpans (bytes : Bytes) (expected : Count) : Except DecodeError (List Span) :=
  if bytes.isEmpty then do
    expected.check 0
    return []
  else if bytes.length < bytesPerOffset then
    .error (.truncatedInput bytes.length bytesPerOffset)
  else do
    -- The first offset is also the size of the table.
    let first ← readOffset bytes 0
    if first = 0 ∨ first % bytesPerOffset ≠ 0 then throw (.invalidOffset first .notWholeTable)
    if bytes.length < first then throw (.invalidOffset first .pastEnd)
    let count := first / bytesPerOffset
    expected.check count
    spansOfOffsets (← readTable count bytes) first bytes.length

/-- The spans of a sequence of elements that all have the same size. -/
def fixedSpans (bytes : Bytes) (size : Nat) (expected : Count) : Except DecodeError (List Span) :=
  if bytes.length % size ≠ 0 then .error (.trailingBytes (bytes.length % size))
  else do
    let count := bytes.length / size
    expected.check count
    return (List.range count).map fun entry => ⟨entry * size, (entry + 1) * size⟩

/-- The offsets of the variable-size fields of a container whose fixed part is at a position. -/
def fieldOffsets (bytes : Bytes) : List Field → (position : Nat) → Except DecodeError (List Nat)
  | [], _ => .ok []
  | field :: rest, position =>
    match field.schema.fixedSize with
    | some size => fieldOffsets bytes rest (position + size)
    | none => do
      -- Only a field of varying size has an offset in the fixed part.
      let offset ← readOffset bytes position
      return offset :: (← fieldOffsets bytes rest (position + bytesPerOffset))

/-- The span of each field, in place for a fixed-size one, else the next of the variable spans. -/
def fieldSpans (fixedEnd : Nat) : List Field → (position : Nat) → (pending : List Span) →
    List Span
  | [], _, _ => []
  | field :: rest, position, pending =>
    match field.schema.fixedSize with
    | some size =>
      -- A field of a fixed size stands in place, others take the next pending span.
      ⟨position, position + size⟩ :: fieldSpans fixedEnd rest (position + size) pending
    | none =>
      pending.headD ⟨fixedEnd, fixedEnd⟩ ::
        fieldSpans fixedEnd rest (position + bytesPerOffset) pending.tail

/-- The spans of the fields of a container. -/
def containerSpans (fields : List Field) (bytes : Bytes) : Except DecodeError (List Span) := do
  let fixedEnd := Schema.fixedEnd fields
  let offsets ← fieldOffsets bytes fields 0
  return fieldSpans fixedEnd fields 0 (← spansOfOffsets offsets fixedEnd bytes.length)

end Ssz
