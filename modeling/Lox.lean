import Lox.Main
import Lox.Tree.Outline
import Lox.Proofs.Declarations
import Lox.Proofs.Noninterference
import Lox.Proofs.Parse.Modes
import Lox.Proofs.Joining
import Lox.Proofs.Surface.Targets
import Lox.Proofs.Printing
import Lox.Proofs.Token.Lossless
import Lox.Proofs.Classes
import Lox.Proofs.Faults
import Lox.Proofs.Cleanup
import Lox.Proofs.FaultCatching
import Lox.Proofs.PlainLoop
import Lox.Proofs.Reports
import Lox.Proofs.Misplacement
import Lox.Proofs.Recovery
import Lox.Proofs.Tiers
import Lox.Proofs.NestingLimit
import Lox.Proofs.BareExpression
import Lox.Proofs.Caret
import Lox.Proofs.Collection.MapUse
import Lox.Proofs.Collection.ListUse
import Lox.Proofs.Display.Unfolding
import Lox.Proofs.Iterations
import Lox.Proofs.Token.Spacing
import Lox.Proofs.Slots
import Lox.Proofs.Construction
import Lox.Proofs.Token.Positions
import Lox.Proofs.Surface.Spans
import Lox.Proofs.Colouring
import Lox.Proofs.Power
