import Embargo.Main
import Embargo.Storage.Tree
import Embargo.Proofs.ClassFile.Countable
import Embargo.Proofs.ClassFile.Delimiting
import Embargo.Proofs.ClassFile.PoolAdditions
import Embargo.Proofs.ClassFile.Verbatim
import Embargo.Proofs.Classpath.Agreement
import Embargo.Proofs.Code.DescriptorPlaces
import Embargo.Proofs.Code.Encoding
import Embargo.Proofs.Code.FrameSize
import Embargo.Proofs.Code.Reencoding
import Embargo.Proofs.Code.StackLimit
import Embargo.Proofs.Enforcement.Atomicity
import Embargo.Proofs.Enforcement.Concern
import Embargo.Proofs.Enforcement.Confinement
import Embargo.Proofs.Enforcement.ControlFlow
import Embargo.Proofs.Enforcement.Difference
import Embargo.Proofs.Enforcement.FrameClasses
import Embargo.Proofs.Enforcement.FrameFaults
import Embargo.Proofs.Enforcement.FramePlacement
import Embargo.Proofs.Enforcement.LeastUnreachable
import Embargo.Proofs.Enforcement.Limits
import Embargo.Proofs.Enforcement.Readable
import Embargo.Proofs.Jar.Accounting
import Embargo.Proofs.Jar.Outcome
import Embargo.Proofs.Jar.Resources
import Embargo.Proofs.Text.Groups
import Embargo.Proofs.Zip.Payload
