import Parley.Saved.Script
import Parley.Proofs.Lists
import Parley.Proofs.Trimming
import Parley.Proofs.Document
import Parley.Proofs.Reach
import Parley.Proofs.Spans
import Parley.Proofs.Covering
import Parley.Proofs.Walk
import Parley.Proofs.Tokens
import Parley.Proofs.Scanning
import Parley.Proofs.Parts
import Parley.Proofs.Lossless
import Parley.Proofs.Lookup
import Parley.Proofs.Forest
import Parley.Proofs.Balance
import Parley.Proofs.Pieces
import Parley.Proofs.Delimiters
import Parley.Proofs.Ledger
import Parley.Proofs.Header
import Parley.Proofs.Verdict
import Parley.Proofs.Clashes
import Parley.Proofs.Reports
import Parley.Proofs.Alike
import Parley.Proofs.Alone
import Parley.Proofs.Growth
import Parley.Proofs.Speakers
import Parley.Proofs.Padding
import Parley.Proofs.Moving
import Parley.Proofs.Doubles
import Parley.Proofs.Saving
import Parley.Proofs.Bounds
import Parley.Proofs.Values
import Parley.Proofs.Brackets
import Parley.Proofs.Pairing
import Parley.Proofs.Parameters
import Parley.Proofs.Targets
import Parley.Proofs.Intervals
import Parley.Proofs.Printing
import Parley.Proofs.Whole
import Parley.Proofs.Titles
import Parley.Proofs.Levels
import Parley.Proofs.Marks
import Parley.Proofs.Annotations
import Parley.Proofs.WriteBack
import Parley.Proofs.Minting
