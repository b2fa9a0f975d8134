import W16Compiler.Main
import W16Compiler.Outline
import W16Compiler.Proofs.Select.Correct
import W16Compiler.Proofs.Frame.Layout
import W16Compiler.Proofs.Encode.Placement
import W16Compiler.Proofs.Types.Devirtualization
import W16Compiler.Proofs.Lowering.Cleanups
import W16Compiler.Proofs.Constant.Execution
import W16Compiler.Proofs.Types.Interfaces
import W16Compiler.Proofs.Types.Tiling
import W16Compiler.Proofs.Lowering.ArgumentArea
import W16Compiler.Proofs.Grammar.TablePointers
import W16Compiler.Proofs.Grammar.Precedence
import W16Compiler.Proofs.Evaluation.Conditions
import W16Compiler.Proofs.Token.RoundTrip
import W16Compiler.Proofs.Prim.Whole
import W16Compiler.Proofs.Machine.Convergence
import W16Compiler.Proofs.Token.Lookahead
import W16Compiler.Proofs.Arena
import W16Compiler.Proofs.Types.Subobjects
import W16Compiler.Proofs.Token.Locations
