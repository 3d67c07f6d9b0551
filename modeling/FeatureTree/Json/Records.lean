import FeatureTree.Json.Reader
import FeatureTree.Text.Position

/-!
# Records — points and positions read from JSON

A record is an object that holds each field exactly once, or an array of the fields in order and of
nothing else.  Members of other names are skipped, whatever they hold.
-/

namespace FeatureTree

def Point.ofRaw? (raw : Json.Raw) : Option Point := do
  match ← raw.record? with
  | .listed [line, column, offset] => return ⟨← line.nat?, ← column.nat?, ← offset.nat?⟩
  | .listed _ => none
  | .named members =>
      let line ← (← Json.Raw.required? members "line").nat?
      let column ← (← Json.Raw.required? members "column").nat?
      let offset ← (← Json.Raw.required? members "offset").nat?
      return ⟨line, column, offset⟩

def Position.ofRaw? (raw : Json.Raw) : Option Position := do
  match ← raw.record? with
  | .listed [start, stop] => return ⟨← Point.ofRaw? start, ← Point.ofRaw? stop⟩
  | .listed _ => none
  | .named members =>
      let start ← Point.ofRaw? (← Json.Raw.required? members "start")
      let stop ← Point.ofRaw? (← Json.Raw.required? members "end")
      return ⟨start, stop⟩

def Point.parse? (text : String) : Option Point := (Json.Raw.parse? text).bind Point.ofRaw?

def Position.parse? (text : String) : Option Position :=
  (Json.Raw.parse? text).bind Position.ofRaw?

end FeatureTree
