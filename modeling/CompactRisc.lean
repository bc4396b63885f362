import CompactRisc.Assembly
import CompactRisc.Edit
import CompactRisc.Instruction.Decoding
import CompactRisc.Output.Dump
import CompactRisc.Output.Listing
import CompactRisc.Output.MachineCode
import CompactRisc.Output.SymbolTable
import CompactRisc.Command.Run
import CompactRisc.Main
import CompactRisc.Proofs.Declarations
import CompactRisc.Proofs.Catalog
import CompactRisc.Proofs.Layout.Blocks
import CompactRisc.Proofs.Layout.Phases
import CompactRisc.Proofs.Outline
import CompactRisc.Proofs.Resolution
import CompactRisc.Proofs.Rewriting
import CompactRisc.Proofs.Relaxation
import CompactRisc.Proofs.Numerals
import CompactRisc.Proofs.Literals
import CompactRisc.Proofs.Files
import CompactRisc.Proofs.MachineCode
import CompactRisc.Proofs.Fields
import CompactRisc.Proofs.Decoding
import CompactRisc.Proofs.Generated
import CompactRisc.Proofs.Layout.Soundness
import CompactRisc.Proofs.Handles
import CompactRisc.Proofs.Warnings
import CompactRisc.Proofs.AddressWidth
import CompactRisc.Proofs.Defines
import CompactRisc.Proofs.Landing
import CompactRisc.Proofs.Acceptance
import CompactRisc.Proofs.Tokens
import CompactRisc.Proofs.Reassembly
import CompactRisc.Proofs.Disassembly
import CompactRisc.Proofs.Relocation
import CompactRisc.Proofs.Renumbering
import CompactRisc.Proofs.Faults
import CompactRisc.Proofs.Violations
import CompactRisc.Proofs.Correspondence
import CompactRisc.Proofs.Reformatting
import CompactRisc.Proofs.Substitution
import CompactRisc.Proofs.Renaming
import CompactRisc.Proofs.Edits
import CompactRisc.Proofs.Entries
import CompactRisc.Proofs.Sweep
import CompactRisc.Proofs.Runs
import CompactRisc.Proofs.Paths
