import Parley.Position

/-!
# Warnings and the log

Some mistakes do not stop a script from being read.  They are collected with the positions they
belong to, and shown in the order of these positions.

Principal results: `sorted_perm` — showing the log loses and adds nothing; `sorted_pairwise` — it is
shown in the order of positions.
-/

namespace Parley

/-- A mistake that does not stop the reading. -/
inductive Warning where
  | unknownJumpTarget (target node : String)
  | jumpWithoutTarget (node : String)
  /-- A quotation among the parameters of a command is never closed. -/
  | unterminatedQuote (command : String)
  deriving DecidableEq, Repr

def Warning.message : Warning → String
  | .unknownJumpTarget target node =>
    "jump in node '" ++ node ++ "' targets '" ++ target ++ "' but no node with that title exists"
  | .jumpWithoutTarget node => "jump in node '" ++ node ++ "' has no target node"
  | .unterminatedQuote command =>
    "quoted parameter in '" ++ command ++ "' is never closed: it runs to the end of the command"

/-- A warning and where it belongs. -/
structure Report where
  warning : Warning
  position : Position
  deriving DecidableEq, Repr

/-- The report as a line of its own. -/
def Report.display (r : Report) : String :=
  "[" ++ r.position.display ++ "] WARNING: " ++ r.warning.message

/-- The reports in the order in which they were made. -/
structure Log where
  reports : Array Report
  deriving DecidableEq, Repr

namespace Log

def empty : Log := ⟨#[]⟩

def add (log : Log) (r : Report) : Log := ⟨log.reports.push r⟩

/-- Whether a report may be shown before another one. -/
def upTo (r s : Report) : Bool := r.position.index ≤ s.position.index

/-- The reports in the order of their positions; those of one line stay in the order of the log. -/
def sorted (log : Log) : List Report := log.reports.toList.mergeSort upTo

theorem sorted_perm (log : Log) : log.sorted.Perm log.reports.toList :=
  List.mergeSort_perm _ _

theorem sorted_pairwise (log : Log) :
    log.sorted.Pairwise fun r s => r.position.index ≤ s.position.index := by
  have trans : ∀ a b c : Report, upTo a b = true → upTo b c = true → upTo a c = true := by
    simp only [upTo, decide_eq_true_eq]
    omega
  have total : ∀ a b : Report, (upTo a b || upTo b a) = true := by
    simp only [upTo, Bool.or_eq_true, decide_eq_true_eq]
    omega
  simpa [sorted, upTo] using List.pairwise_mergeSort trans total log.reports.toList

end Log

end Parley
