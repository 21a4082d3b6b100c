import ReversePolish.Binary64.Bits
import ReversePolish.Main
import ReversePolish.Proofs.Splitting
import ReversePolish.Proofs.Reading
import ReversePolish.Proofs.Walking
import ReversePolish.Proofs.Numerals
import ReversePolish.Proofs.Literals
import ReversePolish.Proofs.Nearest
import ReversePolish.Proofs.Printing
import ReversePolish.Proofs.Stepping
import ReversePolish.Proofs.Accuracy
import ReversePolish.Proofs.Framing
import ReversePolish.Proofs.Outlines
import ReversePolish.Proofs.Erasing
import ReversePolish.Proofs.Transcripts
import ReversePolish.Proofs.Composing
import ReversePolish.Proofs.Joining
import ReversePolish.Proofs.Arguments
import ReversePolish.Proofs.Popping
import ReversePolish.Proofs.Tracing
import ReversePolish.Proofs.Lines
import ReversePolish.Proofs.Auditing
import ReversePolish.Proofs.Shortest
import ReversePolish.Proofs.Typing
import ReversePolish.Proofs.Forms
import ReversePolish.Proofs.Folding
import ReversePolish.Proofs.Displaying
import ReversePolish.Proofs.Answering
import ReversePolish.Binary64.Product
import ReversePolish.Proofs.Powers
