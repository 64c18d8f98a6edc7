import Smalltalk.Main
import Smalltalk.World.Workspace
import Smalltalk.Proofs.Outcome
import Smalltalk.Proofs.Reclamation
import Smalltalk.Proofs.Room
import Smalltalk.Proofs.Closure
import Smalltalk.Proofs.Upkeep
import Smalltalk.Proofs.Conduct
import Smalltalk.Proofs.Refusal
import Smalltalk.Proofs.Scheduling
import Smalltalk.Proofs.Declining
import Smalltalk.Proofs.Trials
import Smalltalk.Proofs.Dispatch
import Smalltalk.Proofs.Bookkeeping
import Smalltalk.Proofs.Caching
import Smalltalk.Proofs.Loading
import Smalltalk.Proofs.Encoding
import Smalltalk.Proofs.RoundTrip
import Smalltalk.Proofs.Blocks
import Smalltalk.Proofs.Captures
import Smalltalk.Proofs.Staleness
import Smalltalk.Proofs.Answering
import Smalltalk.Proofs.Protocol
import Smalltalk.Proofs.Movement
import Smalltalk.Proofs.Endurance
import Smalltalk.Proofs.Flushing
import Smalltalk.Proofs.Endianness
import Smalltalk.Proofs.Semaphores
import Smalltalk.Proofs.Endings
import Smalltalk.Proofs.Unwinding
import Smalltalk.Proofs.Registration
import Smalltalk.Proofs.Allocation
import Smalltalk.Proofs.Signals
import Smalltalk.Proofs.Detours
import Smalltalk.Proofs.Lineup
import Smalltalk.Proofs.Sightings
import Smalltalk.Proofs.Strides
import Smalltalk.Proofs.Tagging
import Smalltalk.Proofs.Exactness
import Smalltalk.Proofs.Folding
import Smalltalk.Proofs.Recollection
import Smalltalk.Proofs.Freshness
import Smalltalk.Proofs.Inheritance
import Smalltalk.Proofs.Renaming
import Smalltalk.Proofs.Numerals
import Smalltalk.Proofs.Consulting
import Smalltalk.Proofs.Entering
import Smalltalk.Proofs.Sends
import Smalltalk.Proofs.Misunderstood
import Smalltalk.Proofs.Repointing
import Smalltalk.Proofs.Reentry
import Smalltalk.Proofs.Resumption
import Smalltalk.Proofs.Elements
import Smalltalk.Proofs.Inspection
import Smalltalk.Proofs.Sizes
import Smalltalk.Proofs.Tolerance
import Smalltalk.Proofs.Restacking
import Smalltalk.Proofs.Indexing
import Smalltalk.Proofs.Arrays
import Smalltalk.Proofs.Copying
import Smalltalk.Proofs.Visiting
import Smalltalk.Proofs.Lending
import Smalltalk.Proofs.Capacity
import Smalltalk.Proofs.Clipping
import Smalltalk.Proofs.Spread
import Smalltalk.Proofs.Startup
