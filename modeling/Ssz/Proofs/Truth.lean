import Ssz.Opening
import Ssz.Proofs.Checked
import Ssz.Tree.Batch
import Ssz.Tree.Fill
import Ssz.Tree.Level

/-! Errors tell the truth: the numbers in the error of a tree are as its wording says. -/

namespace Ssz

/-- Whether the numbers in an error about a view are in the order that its wording gives them. -/
def ViewError.Truthful : ViewError → Prop
  | indexOutOfBounds index bound => bound ≤ index
  | lengthExceedsMax length max => max < length
  | unionSelectorOutOfRange selector variants => variants ≤ selector
  -- The other errors compare no numbers.
  | _ => True

/-- Whether the numbers in an error about bytes are in the order that its wording gives them. -/
def DecodeError.Truthful : DecodeError → Prop
  | truncatedInput length expected => length < expected
  | trailingBytes remaining => 0 < remaining
  | lengthExceedsMax length max => max < length
  | unionSelectorOutOfRange selector variants => variants ≤ selector
  | _ => True

instance : DecidablePred ViewError.Truthful := fun fault => by
  cases fault <;> unfold ViewError.Truthful <;> infer_instance

instance : DecidablePred DecodeError.Truthful := fun fault => by
  cases fault <;> unfold DecodeError.Truthful <;> infer_instance

/-- A computation that fails with nothing but errors that satisfy a condition. -/
def FailsOnly {ε α : Type} (holds : ε → Prop) (outcome : Except ε α) : Prop :=
  ∀ fault, outcome = .error fault → holds fault

namespace FailsOnly

variable {ε δ α β : Type} {holds : ε → Prop}

/-- A success does not fail. -/
theorem ok (value : α) : FailsOnly holds (.ok value) :=
  nofun

/-- A failure fails with its own error. -/
theorem error {fault : ε} (fair : holds fault) : FailsOnly holds (.error fault : Except ε α) := by
  intro other same
  cases same
  exact fair

/-- Two steps fail as the first one does, or as the second one does after it. -/
theorem bind {first : Except ε α} {next : α → Except ε β} (own : FailsOnly holds first)
    (later : ∀ value, first = .ok value → FailsOnly holds (next value)) :
    FailsOnly holds (first >>= next) := by
  intro fault failed
  rcases bind_eq_error.mp failed with here | ⟨value, done, there⟩
  · exact own fault here
  · exact later value done fault there

/-- What is made of a result changes nothing about failures. -/
theorem map {first : Except ε α} (own : FailsOnly holds first) (make : α → β) :
    FailsOnly holds (make <$> first) := by
  cases first with
  | error fault => exact error (own fault rfl)
  | ok value => exact ok (make value)

/-- Either side of a decision fails only so where it is taken. -/
theorem ite {condition : Prop} [Decidable condition] {first second : Except ε α}
    (taken : condition → FailsOnly holds first) (other : ¬ condition → FailsOnly holds second) :
    FailsOnly holds (if condition then first else second) := by
  split
  · exact taken ‹_›
  · exact other ‹_›

/-- A step for each member fails as the step for one of them. -/
theorem mapM {step : α → Except ε β} {members : List α}
    (each : ∀ member ∈ members, FailsOnly holds (step member)) :
    FailsOnly holds (members.mapM step) := by
  intro fault failed
  obtain ⟨member, inside, here⟩ := exists_of_mapM_eq_error failed
  exact each member inside fault here

/-- A loop fails as one of its steps. -/
theorem foldlM {step : β → α → Except ε β} (each : ∀ state member, FailsOnly holds (step state member))
    (start : β) (members : List α) : FailsOnly holds (members.foldlM step start) := by
  induction members generalizing start with
  | nil => exact ok start
  | cons member rest ih =>
    rw [List.foldlM_cons]
    exact (each start member).bind fun state _ => ih state

/-- An error told in other words holds if it does for whatever went wrong. -/
theorem mapError {first : Except δ α} {word : δ → ε}
    (each : ∀ fault, first = .error fault → holds (word fault)) :
    FailsOnly holds (first.mapError word) := by
  cases first with
  | error fault => exact error (each fault rfl)
  | ok value => exact ok value

end FailsOnly

namespace Tree

section Nodes

variable {α : Type} (tree : Tree) (gindex : Gindex) (depth : Nat) (count : UInt64)

/-- A position that is not there is told without numbers to compare. -/
theorem failsOnly_atPosition (find : List Bool → Option α) :
    FailsOnly ViewError.Truthful (atPosition gindex find) := by
  refine .ite (fun _ => .error trivial) fun _ => ?_
  split
  · exact .ok _
  · exact .error trivial

/-- Reading a node tells the truth. -/
theorem failsOnly_navigate : FailsOnly ViewError.Truthful (tree.navigate gindex) :=
  failsOnly_atPosition gindex tree.descend

/-- Replacing a node tells the truth. -/
theorem failsOnly_update (subtree : Tree) :
    FailsOnly ViewError.Truthful (tree.update gindex subtree) :=
  failsOnly_atPosition gindex (tree.graft · subtree)

/-- Reading a chunk tells the truth. -/
theorem failsOnly_chunkAt : FailsOnly ViewError.Truthful (tree.chunkAt gindex) := by
  refine (tree.failsOnly_navigate gindex).bind fun node _ => ?_
  split
  · exact .ok _
  · exact .error trivial

/-- Proving a node tells the truth. -/
theorem failsOnly_prove : FailsOnly ViewError.Truthful (tree.prove gindex) :=
  (failsOnly_atPosition gindex fun turns => tree.opening turns []).bind fun _ _ => .ok _

/-- Filling tells the truth: too many nodes are more than there is room for. -/
theorem failsOnly_fill (nodes : List Tree) : FailsOnly ViewError.Truthful (fill nodes depth) := by
  refine .ite (fun above => .error (Nat.le_of_lt above)) fun _ => .ite (fun _ => ?_) fun _ => ?_
  · exact .mapError fun _ _ => trivial
  · exact .ite (fun _ => .error trivial) fun _ => .ok _

/-- Repeating tells the truth: too many copies are more than there is room for. -/
theorem failsOnly_replicate : FailsOnly ViewError.Truthful (tree.replicate count depth) := by
  refine .ite (fun _ => .error trivial) fun _ => ?_
  exact .ite (fun above => .error (Nat.le_of_lt above)) fun _ => .ok _

/-- Collecting the first nodes of a level below 64 tells the truth. -/
theorem failsOnly_firstNodes : FailsOnly ViewError.Truthful (tree.firstNodes depth count) := by
  induction depth generalizing tree count with
  | zero => cases tree <;> exact .ok _
  | succ depth ih =>
    cases tree with
    | leaf chunk => exact .ite (fun _ => .ok _) fun _ => .error trivial
    | branch left right =>
      -- The half on the right is entered only after the one on the left.
      refine .ite (fun _ => .ok _) fun _ => (ih left _).bind fun front _ => ?_
      exact .ite (fun _ => .ok _) fun _ => (ih right _).bind fun back _ => .ok _

/-- Collecting the first nodes of a level tells the truth. -/
theorem failsOnly_nodesAtDepth : FailsOnly ViewError.Truthful (tree.nodesAtDepth depth count) := by
  refine .ite (fun _ => tree.failsOnly_firstNodes depth count) fun _ => ?_
  exact .ite (fun _ => .ok _) fun _ => .error trivial

/-- Collecting the first chunks of a level tells the truth. -/
theorem failsOnly_chunksAtDepth :
    FailsOnly ViewError.Truthful (tree.chunksAtDepth depth count) := by
  refine (tree.failsOnly_nodesAtDepth depth count).bind fun nodes _ => .mapM fun node _ => ?_
  split
  · exact .ok _
  · exact .error trivial

/-- Putting replacements in tells the truth. -/
theorem failsOnly_rebuild (base : UInt64) (updates : List (UInt64 × Tree)) :
    FailsOnly ViewError.Truthful (tree.rebuild depth base updates) := by
  induction depth generalizing tree base updates with
  | zero =>
    -- At the bottom there is at most one replacement, for the node that is there.
    match updates with
    | [] => cases tree <;> exact .ok _
    | [(_, replacement)] => cases tree <;> exact .ok _
    | _ :: _ :: _ => cases tree <;> exact .error trivial
  | succ depth ih =>
    cases updates with
    | nil => cases tree <;> exact .ok _
    | cons update updates =>
      cases tree with
      | leaf chunk => exact .error trivial
      | branch left right =>
        exact (ih left base _).bind fun front _ => (ih right _ _).bind fun back _ => .ok _

/-- Replacing nodes tells the truth: a number out of range is one not below the size of the level. -/
theorem failsOnly_updateMany (updates : List (UInt64 × Tree)) :
    FailsOnly ViewError.Truthful (tree.updateMany depth updates) := by
  -- What was found to be refused is a number for which the comparison held.
  refine .ite (fun _ => .error trivial) fun _ => ?_
  split
  · rename_i found
    refine .error (show 1 <<< depth ≤ _ from ?_)
    simpa using List.find?_some found
  · exact tree.failsOnly_rebuild depth 0 _

end Nodes

/-- What it means that operations on trees tell the truth where they fail. -/
structure TellsTruth (tree : Tree) : Prop where
  /-- Reading and proving a node. -/
  reads : ∀ gindex, FailsOnly ViewError.Truthful (tree.navigate gindex) ∧
    FailsOnly ViewError.Truthful (tree.prove gindex)
  /-- Replacing a node, or several nodes of one level. -/
  writes : (∀ gindex subtree, FailsOnly ViewError.Truthful (tree.update gindex subtree)) ∧
    ∀ depth updates, FailsOnly ViewError.Truthful (tree.updateMany depth updates)
  /-- Collecting the first nodes or chunks of a level. -/
  collects : ∀ depth count, FailsOnly ViewError.Truthful (tree.nodesAtDepth depth count) ∧
    FailsOnly ViewError.Truthful (tree.chunksAtDepth depth count)
  /-- Filling a level with nodes, or with copies of one. -/
  builds : (∀ nodes depth, FailsOnly ViewError.Truthful (fill nodes depth)) ∧
    ∀ count depth, FailsOnly ViewError.Truthful (tree.replicate count depth)

/-- All operations on trees tell the truth. -/
theorem tellsTruth (tree : Tree) : tree.TellsTruth where
  reads gindex := ⟨tree.failsOnly_navigate gindex, tree.failsOnly_prove gindex⟩
  writes := ⟨tree.failsOnly_update, tree.failsOnly_updateMany⟩
  collects depth count :=
    ⟨tree.failsOnly_nodesAtDepth depth count, tree.failsOnly_chunksAtDepth depth count⟩
  builds := ⟨fun nodes depth => failsOnly_fill depth nodes,
    fun count depth => tree.failsOnly_replicate depth count⟩

end Tree

end Ssz
