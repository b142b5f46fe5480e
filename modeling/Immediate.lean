import Immediate.Codec.Decode
import Immediate.Main
import Immediate.Proofs.Contents
import Immediate.Proofs.Sameness
import Immediate.Proofs.Declarations
import Immediate.Proofs.Lowering
import Immediate.Proofs.Codec.Reading
import Immediate.Proofs.Codec.RoundTrip
import Immediate.Proofs.Casting
import Immediate.Proofs.Typing
import Immediate.Proofs.Number.Widening
import Immediate.Proofs.Codec.Writing
import Immediate.Proofs.Editing.Locations
import Immediate.Proofs.Editing.Looking
import Immediate.Proofs.Editing.Resolving
import Immediate.Proofs.Editing.Changing
import Immediate.Proofs.Editing.Typing
import Immediate.Proofs.Editing.Stored
import Immediate.Proofs.Editing.Reading
import Immediate.Proofs.Editing.Addressing
import Immediate.Proofs.Keys
import Immediate.Proofs.Settling
import Immediate.Proofs.Exact
import Immediate.Proofs.StandingIn
import Immediate.Proofs.Evaluation
import Immediate.Proofs.Joining
import Immediate.Proofs.Editing.Frames
import Immediate.Proofs.Editing.Naming
import Immediate.Proofs.Editing.Effects
import Immediate.Proofs.Editing.Setting
import Immediate.Proofs.Editing.Reached
import Immediate.Proofs.Failing
import Immediate.Proofs.Folding
import Immediate.Proofs.Source.Grammar
import Immediate.Proofs.Source.Precedence
import Immediate.Proofs.Source.Paths
import Immediate.Proofs.Source.Balance
import Immediate.Proofs.Codec.Accepting
import Immediate.Proofs.Truthful
import Immediate.Proofs.Script.Crossing
import Immediate.Proofs.Script.Parting
import Immediate.Proofs.Rendering.Literals
import Immediate.Proofs.Rendering.Rebuilding
import Immediate.Proofs.Rendering.ReadingBack
import Immediate.Proofs.Blame
import Immediate.Proofs.Editing.Marking
import Immediate.Proofs.Fanning
import Immediate.Proofs.LeastCommon
import Immediate.Proofs.Editing.Telling
import Immediate.Proofs.Editing.Removing
import Immediate.Proofs.Editing.Picking
import Immediate.Proofs.Editing.Repeating
import Immediate.Proofs.Editing.Leniency
import Immediate.Proofs.Number.Wrapping
import Immediate.Proofs.Ordering
import Immediate.Proofs.Equality
import Immediate.Proofs.Source.Parentheses
import Immediate.Proofs.Codec.Delimiting
import Immediate.Proofs.Stable
import Immediate.Proofs.Sums
import Immediate.Proofs.Conversions
import Immediate.Proofs.Source.Numerals
import Immediate.Proofs.Codec.Bounds
import Immediate.Proofs.Source.TypeNames
import Immediate.Proofs.Source.Names
import Immediate.Proofs.Rendering.Entities
import Immediate.Proofs.Source.Boundaries
import Immediate.Proofs.Reordering
