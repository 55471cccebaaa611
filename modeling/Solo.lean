import Solo.Grammar.Meaning
import Solo.Grammar.Tokens
import Solo.Main
import Solo.Proofs.Lexing
import Solo.Proofs.Grammar
import Solo.Proofs.Trees
import Solo.Proofs.Acceptance
import Solo.Proofs.Capacity
import Solo.Proofs.Generation
import Solo.Proofs.Compilation
import Solo.Proofs.Threshold
import Solo.Proofs.Encoding
import Solo.Proofs.Stepping
import Solo.Proofs.Depth
import Solo.Proofs.WellFormed
import Solo.Proofs.Frames
import Solo.Proofs.Safety
import Solo.Proofs.Following
import Solo.Proofs.Simulation
import Solo.Proofs.Correctness
import Solo.Proofs.Decoding
import Solo.Proofs.StackRoom
import Solo.Proofs.Operations
import Solo.Proofs.Jumps
import Solo.Proofs.Spelling
import Solo.Proofs.Writing
import Solo.Proofs.Progress
import Solo.Proofs.Blame
import Solo.Proofs.Lookahead
import Solo.Proofs.Viability
import Solo.Proofs.Renaming
import Solo.Proofs.Bounds
import Solo.Proofs.Balance
import Solo.Proofs.Calls
import Solo.Proofs.StaleWords
import Solo.Proofs.Operands
import Solo.Proofs.Interning
import Solo.Proofs.Forward
import Solo.Proofs.ByteScanner
import Solo.Proofs.LongestMatch
import Solo.Proofs.InStep
import Solo.Proofs.Tiling
import Solo.Proofs.Dump
import Solo.Proofs.Arguments
import Solo.Proofs.Tracing
import Solo.Proofs.Listings
import Solo.Proofs.History
import Solo.Proofs.Literals
import Solo.Proofs.OnePass
import Solo.Proofs.Termination
