import BareKernel.Board.Bus
import BareKernel.Board.MemoryMap
import BareKernel.Board.Platform
import BareKernel.Board.Processor
import BareKernel.Board.Uart
import BareKernel.Boot.Journal
import BareKernel.Boot.Sequencer
import BareKernel.Boot.State
import BareKernel.Firmware.Mailbox
import BareKernel.Firmware.Message
import BareKernel.Heap.Action
import BareKernel.Heap.Basic
import BareKernel.Heap.Block
import BareKernel.Heap.Error
import BareKernel.Heap.FreeList
import BareKernel.Heap.Integrity
import BareKernel.Heap.Layout
import BareKernel.Heap.Shared
import BareKernel.Heap.Size
import BareKernel.Heap.Stats
import BareKernel.Kernel.Body
import BareKernel.Kernel.Console
import BareKernel.Kernel.Logging
import BareKernel.Kernel.Machine
import BareKernel.Kernel.Notice
import BareKernel.Kernel.Settings
import BareKernel.KernelMemory
import BareKernel.Log.Line
import BareKernel.Log.LineBuffer
import BareKernel.Log.Record
import BareKernel.Main
import BareKernel.Memory
import BareKernel.Paging.AddressSpace
import BareKernel.Paging.Descriptor
import BareKernel.Paging.Storage
import BareKernel.Sync.AtomicCell
import BareKernel.Sync.Barrier
import BareKernel.Sync.Counter
import BareKernel.Sync.Program
import BareKernel.Sync.SpinLock
import BareKernel.Text.Hex
import BareKernel.Proofs.Heap.Access
import BareKernel.Proofs.Heap.Links
import BareKernel.Proofs.Heap.Plan
import BareKernel.Proofs.Heap.Represents
import BareKernel.Proofs.Heap.Transition
import BareKernel.Proofs.Heap.Operations
import BareKernel.Proofs.Heap.Session
import BareKernel.Proofs.Heap.Guarantees
import BareKernel.Proofs.Sync.Guards
import BareKernel.Proofs.Sync.History
import BareKernel.Proofs.Sync.Protocol
import BareKernel.Proofs.Heap.Bytes
import BareKernel.Proofs.Heap.Loans
import BareKernel.Proofs.Kernel.Client
import BareKernel.Proofs.Boot.Sound
import BareKernel.Proofs.Boot.Steps
import BareKernel.Proofs.Boot.Invariant
import BareKernel.Proofs.Boot.Sequence
import BareKernel.Proofs.Boot.Trail
import BareKernel.Proofs.Sync.Schedule
import BareKernel.Proofs.Board.Platform
import BareKernel.Proofs.Kernel.Body
import BareKernel.Proofs.Boot.Crew
import BareKernel.Proofs.Boot.Meetings
import BareKernel.Proofs.Boot.Publication
import BareKernel.Proofs.Boot.Exclusion
import BareKernel.Proofs.Paging.Walk
import BareKernel.Proofs.Paging.Mapping
import BareKernel.Proofs.Paging.Build
import BareKernel.Proofs.Paging.Codec
import BareKernel.Proofs.Paging.Lookup
import BareKernel.Proofs.Paging.Window
import BareKernel.Proofs.Sync.Counting
import BareKernel.Proofs.Heap.Placement
import BareKernel.Proofs.Heap.Tenancy
import BareKernel.Proofs.Heap.Footprint
import BareKernel.Proofs.Heap.Serial
import BareKernel.Proofs.Heap.Critical
import BareKernel.Proofs.Heap.Interleaving
import BareKernel.Proofs.Heap.Concurrent
import BareKernel.Proofs.Heap.Outcomes
import BareKernel.Proofs.Heap.Inspection
import BareKernel.Proofs.Heap.Integrity
import BareKernel.Proofs.Heap.Accounting
import BareKernel.Proofs.Heap.Damage
import BareKernel.Proofs.Heap.Effects
import BareKernel.Proofs.Heap.DoubleFree
import BareKernel.Proofs.Heap.Confluence
import BareKernel.Proofs.Heap.Reallocation
import BareKernel.Proofs.Sync.Progress
import BareKernel.Proofs.Sync.Rendezvous
import BareKernel.Proofs.Kernel.Waiting
import BareKernel.Proofs.Kernel.Speaking
import BareKernel.Proofs.Kernel.Transmission
import BareKernel.Proofs.Kernel.Lines
import BareKernel.Proofs.Kernel.Custody
import BareKernel.Proofs.Boot.Custody
import BareKernel.Proofs.Boot.Progress
import BareKernel.Proofs.Heap.RoundTrip
import BareKernel.Proofs.Heap.Census
import BareKernel.Proofs.Heap.Checks
import BareKernel.Proofs.Log.Boundaries
import BareKernel.Proofs.Log.LineBuffer
import BareKernel.Proofs.Log.Truncation
import BareKernel.Proofs.Log.Line
import BareKernel.Proofs.Firmware.Codec
import BareKernel.Proofs.Firmware.Handshake
import BareKernel.Proofs.Board.Firmware
