import Pnut.Kafel.Compile
import Pnut.Kafel.Reverse
import Pnut.Proofs.Lowering
import Pnut.Proofs.Emission
import Pnut.Proofs.Tree
import Pnut.Proofs.Normalize
import Pnut.Proofs.Builds
import Pnut.Proofs.Verdict
import Pnut.Proofs.Faithful
import Pnut.Proofs.Isolation
import Pnut.Proofs.Accepted
import Pnut.Proofs.Panics
import Pnut.Proofs.Written
import Pnut.Proofs.Partition
import Pnut.Proofs.Layout
import Pnut.Proofs.Meaning
import Pnut.Proofs.Silent
import Pnut.Proofs.Chain
import Pnut.Proofs.Jumps
import Pnut.Proofs.Search
import Pnut.Proofs.Defines
import Pnut.Proofs.Flatten
import Pnut.Proofs.Includes
import Pnut.Proofs.Precedence
import Pnut.Proofs.Scanned
import Pnut.Proofs.RoundTrip
import Pnut.Sandbox.Seccomp
import Pnut.Proofs.Guard
import Pnut.Child.Runtime
import Pnut.Proofs.FailClosed
import Pnut.Proofs.Startup
import Pnut.Proofs.Interp
import Pnut.Proofs.Payload
import Pnut.Proofs.Rendered
import Pnut.Proofs.Contained
import Pnut.Proofs.Supervision
import Pnut.Proofs.Cleanup
import Pnut.Child.Descriptors
import Pnut.Proofs.Closing
import Pnut.Proofs.Environ
import Pnut.Proofs.Mapped
import Pnut.Sandbox.Env
import Pnut.Proofs.Reserved
import Pnut.Child.Completion
import Pnut.Proofs.Framed
import Pnut.Lib.Flags
import Pnut.Sandbox.Landlock
import Pnut.Proofs.Governed
import Pnut.Child.Caps
import Pnut.Sandbox.Caps
import Pnut.Proofs.Capped
import Pnut.Proofs.Cached
import Pnut.Child.Digits
import Pnut.Child.Directories
import Pnut.Proofs.Prefixes
import Pnut.Cli.Perms
import Pnut.Proofs.Numerals
import Pnut.Proofs.Staged
import Pnut.Child.Process
import Pnut.Proofs.Sent
import Pnut.Proofs.Delivered
import Pnut.Proofs.Handshake
import Pnut.Proofs.Forwarded
import Pnut.Proofs.Source
import Pnut.Proofs.Added
import Pnut.Proofs.Confined
import Pnut.Proofs.Mounted
import Pnut.Proofs.Enforced
import Pnut.Proofs.Furnished
import Pnut.Sandbox.Standalone
