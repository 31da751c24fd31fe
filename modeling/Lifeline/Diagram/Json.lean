import Lifeline.Diagram
import Lifeline.Json

/-! A diagram is written as JSON, with the fields of each record in a fixed order. -/

namespace Lifeline

open Json (list text record boolean)

def Header.toJson (header : Header) : Json :=
  record [("title", text header.title), ("terminators", text header.terminators.name)]

/-- This word is the type of a note as a stage. -/
def NotePosition.stageType (position : NotePosition) : String := "note-" ++ position.name

namespace Stage

def names (names : List String) : Json := list (names.map text)

mutual

def toJson : Stage → Json
  | .mark name => record [("type", text "mark"), ("name", text name)]
  | .jump target => record [("type", text "async"), ("target", text target)]
  | .message sender receiver arrow label =>
      record
        [("type", text "connection"), ("agents", names [sender, receiver]),
          ("line", text arrow.style.name), ("left", boolean arrow.left),
          ("right", boolean arrow.right), ("label", text label)]
  | .enter about mode =>
      record [("type", text "agent-begin"), ("agents", names about), ("mode", text mode.name)]
  | .leave about mode =>
      record [("type", text "agent-end"), ("agents", names about), ("mode", text mode.name)]
  | .note position style about label =>
      record
        [("type", text position.stageType), ("agents", names about),
          ("mode", text style.keyword), ("label", text label)]
  | .block left right sections =>
      record
        [("type", text "block"), ("left", text left), ("right", text right),
          ("sections", list (sectionsToJson sections))]

def sectionsToJson : List (Section Stage) → List Json
  | [] => []
  | ⟨mode, label, stages⟩ :: rest =>
      record [("mode", text mode.keyword), ("label", text label),
        ("stages", list (stagesToJson stages))] :: sectionsToJson rest

def stagesToJson : List Stage → List Json
  | [] => []
  | stage :: rest => toJson stage :: stagesToJson rest

end

end Stage

def Diagram.toJson (diagram : Diagram) : Json :=
  record
    [("meta", diagram.header.toJson), ("agents", Stage.names diagram.columns),
      ("stages", list (Stage.stagesToJson diagram.stages))]

def Diagram.render (layout : Json.Layout) (diagram : Diagram) : String :=
  diagram.toJson.render layout

end Lifeline
