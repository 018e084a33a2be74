import EchoLang.Location
import EchoLang.FloatBits
import EchoLang.Token.Basic
import EchoLang.Token.Blank
import EchoLang.Token.Lexer
import EchoLang.Decimal.Basic
import EchoLang.Decimal.Reader
import EchoLang.Decimal.Shortest
import EchoLang.Decimal.Format
import EchoLang.Error
import EchoLang.Program.Operator
import EchoLang.Program.Basic
import EchoLang.Program.Parser
import EchoLang.Program.Entry
import EchoLang.Code.Label
import EchoLang.Code.Arithmetic
import EchoLang.Code.Basic
import EchoLang.Code.Text
import EchoLang.Code.Simplify
import EchoLang.Lowering.Slots
import EchoLang.Lowering.Labels
import EchoLang.Lowering.Expr
import EchoLang.Lowering.Stmt
import EchoLang.Target
import EchoLang.Wasm.Bytes
import EchoLang.Wasm.Encode
import EchoLang.Wasm.Printer
import EchoLang.Compile
import EchoLang.Machine.Basic
import EchoLang.Machine.Operate
import EchoLang.Machine.Exec
import EchoLang.Program.Dump
import EchoLang.CommandLine.Arguments
import EchoLang.CommandLine.Padding
import EchoLang.CommandLine.Path
import EchoLang.CommandLine.Script
import EchoLang.CommandLine.Compiler
import EchoLang.CommandLine.Runner
import EchoLang.Main
import EchoLang.Proofs.Machine.Ends
import EchoLang.Proofs.Machine.Straight
import EchoLang.Proofs.Machine.Advance
import EchoLang.Proofs.Lowering.Slots
import EchoLang.Proofs.Lowering.Tables
import EchoLang.Proofs.Lowering.Rules
import EchoLang.Proofs.Evaluation.Basic
import EchoLang.Proofs.Evaluation.Expressions
import EchoLang.Proofs.Evaluation.Implements
import EchoLang.Proofs.Evaluation.Control
import EchoLang.Proofs.Evaluation.Correctness
import EchoLang.Proofs.Machine.Lockstep
import EchoLang.Proofs.Simplify.Behaviour
import EchoLang.Proofs.Typing.Rules
import EchoLang.Proofs.Typing.Simplify
import EchoLang.Proofs.Machine.Watch
import EchoLang.Proofs.Typing.Soundness
import EchoLang.Proofs.Token.Words
import EchoLang.Proofs.Wasm.Module
import EchoLang.Proofs.Wasm.Validation
import EchoLang.Proofs.Compile.Entry
import EchoLang.Proofs.Wasm.Compiled
import EchoLang.Proofs.Wasm.Decode
import EchoLang.Proofs.Wasm.RoundTrip
import EchoLang.Proofs.Program.Derivation
import EchoLang.Proofs.Program.Acceptance
import EchoLang.Proofs.Program.Places
import EchoLang.Proofs.Lowering.Places
import EchoLang.Proofs.Errors
import EchoLang.Proofs.Lowering.Faults
import EchoLang.Proofs.Compile.Stages
import EchoLang.Proofs.Compile.Formatting
import EchoLang.Proofs.Compile.Errors
import EchoLang.Proofs.Machine.Depths
import EchoLang.Proofs.Machine.Operands
import EchoLang.Proofs.Machine.Limit
import EchoLang.Proofs.Token.Classes
import EchoLang.Proofs.Token.Lexemes
import EchoLang.Proofs.Token.Tiling
import EchoLang.Proofs.Token.Printing
import EchoLang.Proofs.Machine.Moments
import EchoLang.Proofs.Machine.Termination
import EchoLang.Proofs.Lowering.Mentions
import EchoLang.Proofs.Lowering.Scoping
import EchoLang.Proofs.Lowering.Labels
import EchoLang.Proofs.Compile.Atomicity
import EchoLang.Proofs.Lowering.Accesses
import EchoLang.Proofs.Lowering.Requests
import EchoLang.Proofs.Machine.Relabelling
import EchoLang.Proofs.Lowering.Independence
import EchoLang.Proofs.Simplify.NormalForm
import EchoLang.Proofs.Machine.Scopes
import EchoLang.Proofs.Wasm.Refusal
import EchoLang.Proofs.Listing.Lines
import EchoLang.Proofs.Machine.Trace
import EchoLang.Proofs.Machine.Tracing
import EchoLang.Proofs.Wasm.Callees
import EchoLang.Proofs.Listing.Mnemonics
import EchoLang.Proofs.Listing.Names
import EchoLang.Proofs.Listing.Injectivity
