import Spacing.Json.Token
/-!
Reading JSON values from tokens. The reader keeps the open arrays and objects on a stack, so that
values may be nested to any depth.
-/

namespace Spacing.Json

inductive Frame
  | array (items : List Json)
  | object (members : List (Option String × Json)) (key : Option String)

inductive Reading
  | value (frames : List Frame)
  | itemOrEnd (frames : List Frame)
  | keyOrEnd (frames : List Frame)
  | key (members : List (Option String × Json)) (frames : List Frame)
  | colon (members : List (Option String × Json)) (key : Option String) (frames : List Frame)
  | after (v : Json) (frames : List Frame)

def startValue? (frames : List Frame) : Token → Option Reading
  | .openArray => some (.itemOrEnd frames)
  | .openObject => some (.keyOrEnd frames)
  | .string s => some (.after (.string s) frames)
  | .plain v => some (.after v frames)
  | _ => none

def readStep? : Reading → Token → Option Reading
  | .value frames, t => startValue? frames t
  | .itemOrEnd frames, .closeArray => some (.after (.array []) frames)
  | .itemOrEnd frames, t => startValue? (.array [] :: frames) t
  | .keyOrEnd frames, .closeObject => some (.after (.object []) frames)
  | .keyOrEnd frames, .string s => some (.colon [] s frames)
  | .key members frames, .string s => some (.colon members s frames)
  | .colon members key frames, .colon => some (.value (.object members key :: frames))
  | .after v (.array items :: frames), .comma => some (.value (.array (v :: items) :: frames))
  | .after v (.array items :: frames), .closeArray =>
    some (.after (.array (v :: items).reverse) frames)
  | .after v (.object members key :: frames), .comma => some (.key ((key, v) :: members) frames)
  | .after v (.object members key :: frames), .closeObject =>
    some (.after (.object ((key, v) :: members).reverse) frames)
  | _, _ => none

def ofString? (text : String) : Option Json := do
  match ← (← tokens? text.toList).foldlM readStep? (.value []) with
  | .after v [] => return v
  | _ => none

end Spacing.Json
