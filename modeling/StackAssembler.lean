import StackAssembler.Main
import StackAssembler.DottedName
import StackAssembler.IR.StringMetadata
import StackAssembler.Proofs.Reachability
import StackAssembler.Proofs.Residue
import StackAssembler.Proofs.Atomicity
import StackAssembler.Proofs.BlockRegistry
import StackAssembler.Proofs.Lockstep
import StackAssembler.Proofs.Commutation
import StackAssembler.Proofs.Locality
import StackAssembler.Proofs.LongestMatch
import StackAssembler.Proofs.Parsing
import StackAssembler.Proofs.StrictRun
import StackAssembler.Proofs.FinalNames
import StackAssembler.Proofs.Numbering
import StackAssembler.Proofs.Constants
import StackAssembler.Proofs.TypeRecursion
import StackAssembler.Proofs.StringMap
import StackAssembler.Proofs.OneToOne
import StackAssembler.Proofs.TypeNames
import StackAssembler.Proofs.Folding
import StackAssembler.Proofs.ErrorPlaces
import StackAssembler.Proofs.Comparison
import StackAssembler.Proofs.FoldingDomain
import StackAssembler.Proofs.CallArguments
import StackAssembler.Proofs.ExactSizes
import StackAssembler.Proofs.StructLayout
import StackAssembler.Proofs.TableNames
import StackAssembler.Proofs.TokensFirst
import StackAssembler.Proofs.Mentions
import StackAssembler.Proofs.Lookahead
import StackAssembler.Proofs.FirstClass
import StackAssembler.Proofs.IntegerLiterals
import StackAssembler.Proofs.Respelling
import StackAssembler.Proofs.Visits
import StackAssembler.Proofs.DottedText
import StackAssembler.Proofs.Splitting
import StackAssembler.Proofs.Namespaces
import StackAssembler.Proofs.PairLists
import StackAssembler.Proofs.Shorthand
