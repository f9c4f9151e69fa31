import SmalltalkJvm.Source.Span
import SmalltalkJvm.Jvm.Opcode
import SmalltalkJvm.Jvm.Descriptor
import SmalltalkJvm.Jvm.Word
import SmalltalkJvm.Jvm.ModifiedUtf8
import SmalltalkJvm.Jvm.VerificationType
import SmalltalkJvm.Jvm.Instruction
import SmalltalkJvm.Jvm.AssemblyFault
import SmalltalkJvm.Jvm.ConstantPool
import SmalltalkJvm.Jvm.OperandStack
import SmalltalkJvm.Jvm.Draft
import SmalltalkJvm.Jvm.Linking
import SmalltalkJvm.Jvm.Layout
import SmalltalkJvm.Jvm.StackMap
import SmalltalkJvm.Jvm.ClassFile
import SmalltalkJvm.Jvm.Cursor
import SmalltalkJvm.Jvm.Summary
import SmalltalkJvm.Jvm.ClassName
import SmalltalkJvm.Source.Tree
import SmalltalkJvm.Compile.Settings
import SmalltalkJvm.Compile.Naming
import SmalltalkJvm.Compile.CompileError
import SmalltalkJvm.Compile.Scope
import SmalltalkJvm.Compile.State
import SmalltalkJvm.Compile.Body
import SmalltalkJvm.ClassStore
import SmalltalkJvm.Proofs.Preservation
import SmalltalkJvm.Proofs.Distinct
import SmalltalkJvm.Proofs.Acceptance
import SmalltalkJvm.Proofs.ScriptMeaning
import SmalltalkJvm.Proofs.TypeSafety
import SmalltalkJvm.Proofs.RoundTrip
import SmalltalkJvm.Proofs.BlockLinkage
import SmalltalkJvm.Proofs.SharedStore
import SmalltalkJvm.Proofs.Disassembly
import SmalltalkJvm.Proofs.Bookkeeping
import SmalltalkJvm.Proofs.Boundaries
import SmalltalkJvm.Proofs.LineFidelity
import SmalltalkJvm.Proofs.DirectiveChecks
import SmalltalkJvm.Proofs.Congruence
import SmalltalkJvm.Proofs.Parentheses
import SmalltalkJvm.Proofs.Constituents
import SmalltalkJvm.Proofs.EscapeMode
import SmalltalkJvm.Proofs.Phrases
import SmalltalkJvm.Proofs.Slots
import SmalltalkJvm.Proofs.Interning
import SmalltalkJvm.Proofs.TextEncoding
import SmalltalkJvm.Proofs.OpcodeWalk
import SmalltalkJvm.Proofs.DescriptorGrammar
import SmalltalkJvm.Proofs.Truncation
import SmalltalkJvm.Proofs.StepSequences
import SmalltalkJvm.Proofs.Reachability
import SmalltalkJvm.Proofs.ReaderBounds
import SmalltalkJvm.Proofs.PoolIndex
import SmalltalkJvm.Proofs.StackPeak
import SmalltalkJvm.Proofs.LineTables
import SmalltalkJvm.Proofs.LocalSlots
import SmalltalkJvm.Proofs.Resolution
import SmalltalkJvm.Proofs.AssemblyFaults
import SmalltalkJvm.Proofs.BlockNaming
import SmalltalkJvm.Proofs.ScopeHistory
