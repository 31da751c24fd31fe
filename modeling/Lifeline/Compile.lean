import Lifeline.Assembly

/-! A source becomes tokens, lines, a document and a diagram. -/

namespace Lifeline

/-- A complaint is whatever a source can be refused for. -/
inductive Complaint where
  | quotation (cause : OpenQuotation)
  | line (cause : Refusal)
  | assembly (cause : Fault)
  deriving DecidableEq

def Complaint.diagnostic : Complaint → Diagnostic
  | .quotation cause => cause.diagnostic
  | .line cause => cause.diagnostic
  | .assembly cause => cause.diagnostic

/-- The whole source is cut into tokens before any line of it is read. -/
def parse (header : Header) (source : String) : Except Complaint Document :=
  match tokenize source with
  | .error cause => .error (.quotation cause)
  | .ok tokens => (Document.ofLines header (Line.split tokens)).mapError .line

/-- This function makes the diagram of a source. The header holds where the source is silent. -/
def compile (header : Header) (source : String) : Except Complaint Diagram :=
  match parse header source with
  | .error complaint => .error complaint
  | .ok document => document.assemble.mapError .assembly

end Lifeline
