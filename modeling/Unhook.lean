import Unhook.Compile
import Unhook.Proofs.Dangling
import Unhook.Proofs.Lowered
import Unhook.Proofs.Placement
import Unhook.Proofs.Binding
import Unhook.Proofs.Legible
import Unhook.Proofs.Correspondence
import Unhook.Proofs.Closure
import Unhook.Proofs.Following
import Unhook.Proofs.Expansion
import Unhook.Proofs.Placeholder
import Unhook.Proofs.Reading.Statement
import Unhook.Proofs.Ending
import Unhook.Proofs.Untouched
import Unhook.Proofs.Frozen
import Unhook.Proofs.Propagation
import Unhook.Proofs.Resolution
import Unhook.Proofs.Layout
import Unhook.Proofs.Opening
import Unhook.Proofs.Exported
import Unhook.Proofs.Unhooked
import Unhook.Proofs.Declared
import Unhook.Proofs.ReturnShape
import Unhook.Proofs.Misplaced
import Unhook.Proofs.StatePair
import Unhook.Proofs.Reading.Order
import Unhook.Proofs.Siblings
import Unhook.Proofs.Unfolding
import Unhook.Proofs.Branching
import Unhook.Proofs.Stable
import Unhook.Proofs.Linear
import Unhook.Proofs.Filling
import Unhook.Proofs.Capture
import Unhook.Proofs.Registered
import Unhook.Proofs.Unmemoized
import Unhook.Proofs.Renaming
import Unhook.Proofs.Provenance
import Unhook.Proofs.Located
import Unhook.Proofs.Frame
import Unhook.Proofs.Naming
import Unhook.Proofs.Literal
