import CallGuard.Text.Blank
import CallGuard.Condition.Integrity
import CallGuard.Canonical.NormalForm
import CallGuard.Subtraction
import CallGuard.Packed.Reader
import CallGuard.Deployment
import CallGuard.Draft.Printer
import CallGuard.Draft.Reader
import CallGuard.Settings
import CallGuard.CommandLine.Program
import CallGuard.Main
import CallGuard.Proofs.Packing
import CallGuard.Proofs.Equivalence
import CallGuard.Proofs.Exactness
import CallGuard.Proofs.FixedPoints
import CallGuard.Proofs.Regrouping
import CallGuard.Proofs.Identity
import CallGuard.Proofs.Shrinking
import CallGuard.Proofs.Integrity
import CallGuard.Proofs.Inverse
import CallGuard.Proofs.Addresses
import CallGuard.Proofs.Rereading
import CallGuard.Proofs.Separation
import CallGuard.Proofs.FirstFault
import CallGuard.Proofs.SingleHinge
import CallGuard.Proofs.Removal
import CallGuard.Proofs.Unpacking
import CallGuard.Proofs.Slots
import CallGuard.Proofs.VariableSize
import CallGuard.Proofs.CommonWidth
import CallGuard.Proofs.Cleaning
import CallGuard.Proofs.Creation
import CallGuard.Proofs.Worklist
import CallGuard.Proofs.Layering
import CallGuard.Proofs.SettingsFile
