import MutationAnalysis.Binary.Codec
import MutationAnalysis.Campaign.Engine
import MutationAnalysis.Campaign.Partition
import MutationAnalysis.Campaign.Progress
import MutationAnalysis.Campaign.Schedule
import MutationAnalysis.Campaign.Worker
import MutationAnalysis.CommandLine
import MutationAnalysis.Config
import MutationAnalysis.Digest.Md5
import MutationAnalysis.Duration
import MutationAnalysis.Error
import MutationAnalysis.Image.HostState
import MutationAnalysis.Image.Loader
import MutationAnalysis.Image.Native
import MutationAnalysis.Image.Object
import MutationAnalysis.Image.Resolver
import MutationAnalysis.Image.Trampolines
import MutationAnalysis.Job
import MutationAnalysis.Json.Basic
import MutationAnalysis.Json.Reader
import MutationAnalysis.Json.Record
import MutationAnalysis.Json.Writer
import MutationAnalysis.Lowering.Code
import MutationAnalysis.Lowering.Layout
import MutationAnalysis.Lowering.Module
import MutationAnalysis.Main
import MutationAnalysis.Mutation.Discovery
import MutationAnalysis.Mutation.Operator
import MutationAnalysis.Mutation.Point
import MutationAnalysis.Outcome
import MutationAnalysis.Program.Basic
import MutationAnalysis.Program.Binary
import MutationAnalysis.Program.Instruction
import MutationAnalysis.Program.Json
import MutationAnalysis.Program.Validation
import MutationAnalysis.Proofs.Binary.Codec
import MutationAnalysis.Proofs.Campaign.Addresses
import MutationAnalysis.Proofs.Campaign.Baseline
import MutationAnalysis.Proofs.Campaign.Coverage
import MutationAnalysis.Proofs.Campaign.Discipline
import MutationAnalysis.Proofs.Campaign.FailFast
import MutationAnalysis.Proofs.Campaign.History
import MutationAnalysis.Proofs.Campaign.InPlace
import MutationAnalysis.Proofs.Campaign.Instrumentation
import MutationAnalysis.Proofs.Campaign.Interleaving
import MutationAnalysis.Proofs.Campaign.Loaded
import MutationAnalysis.Proofs.Campaign.Numbers
import MutationAnalysis.Proofs.Campaign.Parallel
import MutationAnalysis.Proofs.Campaign.Partition
import MutationAnalysis.Proofs.Campaign.Prepared
import MutationAnalysis.Proofs.Campaign.Pruning
import MutationAnalysis.Proofs.Campaign.Results
import MutationAnalysis.Proofs.Campaign.Run
import MutationAnalysis.Proofs.Campaign.Selection
import MutationAnalysis.Proofs.Campaign.Separation
import MutationAnalysis.Proofs.Campaign.Statuses
import MutationAnalysis.Proofs.Campaign.TopLevel
import MutationAnalysis.Proofs.Campaign.Truth
import MutationAnalysis.Proofs.Campaign.Validity
import MutationAnalysis.Proofs.Campaign.Verdicts
import MutationAnalysis.Proofs.Campaign.Worker
import MutationAnalysis.Proofs.Distinct
import MutationAnalysis.Proofs.Duration
import MutationAnalysis.Proofs.Except
import MutationAnalysis.Proofs.Image.AddressSpace
import MutationAnalysis.Proofs.Image.Calls
import MutationAnalysis.Proofs.Image.Cells
import MutationAnalysis.Proofs.Image.Generations
import MutationAnalysis.Proofs.Image.Instrumented
import MutationAnalysis.Proofs.Image.Linkable
import MutationAnalysis.Proofs.Image.Linking
import MutationAnalysis.Proofs.Image.Natives
import MutationAnalysis.Proofs.Image.Objects
import MutationAnalysis.Proofs.Image.Probes
import MutationAnalysis.Proofs.Image.Programs
import MutationAnalysis.Proofs.Image.Realization
import MutationAnalysis.Proofs.Image.Recording
import MutationAnalysis.Proofs.Image.Redirection
import MutationAnalysis.Proofs.Image.Telling
import MutationAnalysis.Proofs.Image.Transparency
import MutationAnalysis.Proofs.Interpreter.Arithmetic
import MutationAnalysis.Proofs.Interpreter.Balance
import MutationAnalysis.Proofs.Interpreter.Basic
import MutationAnalysis.Proofs.Interpreter.Diversion
import MutationAnalysis.Proofs.Interpreter.Lockstep
import MutationAnalysis.Proofs.Interpreter.Preservation
import MutationAnalysis.Proofs.Interpreter.Probing
import MutationAnalysis.Proofs.Interpreter.Realization
import MutationAnalysis.Proofs.Interpreter.Registers
import MutationAnalysis.Proofs.Interpreter.Simulation
import MutationAnalysis.Proofs.Json.Record
import MutationAnalysis.Proofs.Json.Text
import MutationAnalysis.Proofs.Json.Tokens
import MutationAnalysis.Proofs.Lowering.Calls
import MutationAnalysis.Proofs.Lowering.Code
import MutationAnalysis.Proofs.Lowering.Layout
import MutationAnalysis.Proofs.Lowering.Locals
import MutationAnalysis.Proofs.Lowering.Module
import MutationAnalysis.Proofs.Lowering.Probes
import MutationAnalysis.Proofs.Lowering.Registers
import MutationAnalysis.Proofs.Lowering.Typing
import MutationAnalysis.Proofs.Lowering.WellFormed
import MutationAnalysis.Proofs.Mutation.Discovery
import MutationAnalysis.Proofs.Mutation.Edit
import MutationAnalysis.Proofs.Mutation.Identifier
import MutationAnalysis.Proofs.Mutation.Minimality
import MutationAnalysis.Proofs.Mutation.Repetition
import MutationAnalysis.Proofs.Mutation.Uncached
import MutationAnalysis.Proofs.Mutation.Validity
import MutationAnalysis.Proofs.Program.Acceptance
import MutationAnalysis.Proofs.Program.Binary
import MutationAnalysis.Proofs.Program.Json
import MutationAnalysis.Proofs.Program.Names
import MutationAnalysis.Proofs.Program.Validity
import MutationAnalysis.Proofs.Report.Basic
import MutationAnalysis.Proofs.Report.Classes
import MutationAnalysis.Proofs.Report.Order
import MutationAnalysis.Proofs.Report.Summary
import MutationAnalysis.Proofs.TestRun.Arguments
import MutationAnalysis.Proofs.TestRun.Calls
import MutationAnalysis.Proofs.TestRun.Comparison
import MutationAnalysis.Proofs.TestRun.Destructors
import MutationAnalysis.Proofs.TestRun.Runner
import MutationAnalysis.Proofs.TestRun.States
import MutationAnalysis.Proofs.Text.ByteOrder
import MutationAnalysis.Proofs.Trace.Balance
import MutationAnalysis.Proofs.Trace.CallTree
import MutationAnalysis.Proofs.Trace.Entries
import MutationAnalysis.Proofs.Trace.FirstCaller
import MutationAnalysis.Proofs.Trace.Numbering
import MutationAnalysis.Proofs.Trace.Reconstruction
import MutationAnalysis.Proofs.Trace.Tree
import MutationAnalysis.Proofs.Trace.Walk
import MutationAnalysis.Proofs.Transition
import MutationAnalysis.Proofs.Unit.Exactness
import MutationAnalysis.Proofs.Unit.Failure
import MutationAnalysis.Proofs.Unit.Names
import MutationAnalysis.Proofs.Unit.Preparation
import MutationAnalysis.Proofs.Unit.Redirection
import MutationAnalysis.Proofs.Wasm.Calls
import MutationAnalysis.Proofs.Wasm.Contents
import MutationAnalysis.Proofs.Wasm.Effects
import MutationAnalysis.Proofs.Wasm.Execution
import MutationAnalysis.Proofs.Wasm.Frames
import MutationAnalysis.Proofs.Wasm.Framing
import MutationAnalysis.Proofs.Wasm.Memory
import MutationAnalysis.Proofs.Wasm.Noting
import MutationAnalysis.Proofs.Wasm.Preservation
import MutationAnalysis.Proofs.Wasm.Typing
import MutationAnalysis.Report.Basic
import MutationAnalysis.Report.Summary
import MutationAnalysis.SymbolName
import MutationAnalysis.TestRun.Arguments
import MutationAnalysis.TestRun.Runner
import MutationAnalysis.TestRun.Sandbox
import MutationAnalysis.Text.CharacterClass
import MutationAnalysis.Text.FileStem
import MutationAnalysis.Text.Hex
import MutationAnalysis.Text.Instant
import MutationAnalysis.Text.Lossy
import MutationAnalysis.Text.Quoted
import MutationAnalysis.Text.Tenths
import MutationAnalysis.Text.Uuid
import MutationAnalysis.Trace.CallTree
import MutationAnalysis.Trace.Numbering
import MutationAnalysis.Trace.Recorder
import MutationAnalysis.Trace.Tracer
import MutationAnalysis.Unit.Basic
import MutationAnalysis.Unit.Preparation
import MutationAnalysis.Wasm.Call
import MutationAnalysis.Wasm.Code
import MutationAnalysis.Wasm.Encoding
import MutationAnalysis.Wasm.Machine
import MutationAnalysis.Wasm.Memory
import MutationAnalysis.Wasm.Module
import MutationAnalysis.Wasm.Validity
