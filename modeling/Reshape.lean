import Reshape.Mapper
import Reshape.Path.Record
import Reshape.Pipeline.Equality
import Reshape.Profile
import Reshape.Proofs.Definition.Apply
import Reshape.Proofs.Definition.Concat
import Reshape.Proofs.Definition.IgnoredKeys
import Reshape.Proofs.Definition.Operations
import Reshape.Proofs.Definition.References
import Reshape.Proofs.Path.Barrier
import Reshape.Proofs.Path.Mirror
import Reshape.Proofs.Path.ReadBack
import Reshape.Proofs.Path.Update
import Reshape.Proofs.Pipeline.Blindness
import Reshape.Proofs.Pipeline.Clean
import Reshape.Proofs.Pipeline.Defaults
import Reshape.Proofs.Pipeline.EffectiveDirection
import Reshape.Proofs.Pipeline.Faults
import Reshape.Proofs.Pipeline.Suspension
import Reshape.Proofs.Shape.ConstantField
import Reshape.Proofs.Shape.DottedKeys
import Reshape.Proofs.Shape.Iteration
import Reshape.Proofs.Shape.KeyOrder
import Reshape.Proofs.Shape.RoundTrip
import Reshape.Proofs.Shape.Siblings
import Reshape.Proofs.Shape.SingleField
import Reshape.Proofs.Shape.Spread
import Reshape.Proofs.Path.Descent
import Reshape.Proofs.Shape.Containers
import Reshape.Proofs.Path.Widening
import Reshape.Proofs.Pipeline.Lookup
import Reshape.Proofs.Pipeline.Splice
import Reshape.Proofs.Path.Written
import Reshape.Proofs.Path.Separators
import Reshape.Proofs.Value.Documents
import Reshape.Proofs.Definition.Variables
import Reshape.Proofs.Value.Pathwise
import Reshape.Proofs.Definition.Recompilation
import Reshape.Proofs.Value.Nonvalues
