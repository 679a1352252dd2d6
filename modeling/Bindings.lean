import Bindings.Proofs.Signature.Offsets
import Bindings.Proofs.Signature.Slices
import Bindings.Proofs.Placeholders
import Bindings.Proofs.Subtyping
import Bindings.Proofs.Supertypes
import Bindings.Proofs.Names
import Bindings.Proofs.Retries
import Bindings.Proofs.Registry
import Bindings.Proofs.Imports
import Bindings.Proofs.MemberTypes.Marks
import Bindings.Proofs.Joins
import Bindings.Proofs.CapturedBounds
import Bindings.Proofs.CombinedArguments
import Bindings.Proofs.Locals
import Bindings.Proofs.References
import Bindings.Proofs.Selection
import Bindings.Proofs.SupertypeSearch
import Bindings.Proofs.Arrays
import Bindings.Proofs.Visibility
import Bindings.Proofs.IndexPaths
import Bindings.Proofs.Requests
