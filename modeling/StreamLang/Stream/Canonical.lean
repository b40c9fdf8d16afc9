import StreamLang.Stream
import StreamLang.Text.Blank

/-!
The canonical text of a stream: one space between tokens, every label before its stage, and
parameter values quoted where they would not read back as one unquoted token.
-/

namespace StreamLang

/-! ## Values -/

namespace Value

/-- A character that may start a value written without quotes. -/
def isBareStart (c : Char) : Bool :=
  isBare c && c != '-' && c != ':'

/-- Whether a value reads back when it is written without quotes. A value that ends in a colon
would read back as a label. -/
def isBareText : List Char → Bool
  | [] => false
  | c :: cs => isBareStart c && cs.all isBare && (c :: cs).getLast? != some ':'

/-- A character inside single quotes: quotes and backslashes are doubled. -/
def escapeChar (c : Char) : List Char :=
  if c = '\'' then ['\'', '\''] else if c = '\\' then ['\\', '\\'] else [c]

/-- A parameter value as it is written in a stream definition. -/
def render (value : String) : String :=
  if isBareText value.toList then value
  else String.ofList ('\'' :: value.toList.flatMap escapeChar ++ ['\''])

end Value

/-! ## Stages and streams -/

namespace Stage

/-- A parameter, after a space. -/
def renderParameter (key value : String) : String :=
  " --" ++ key ++ "=" ++ Value.render value

/-- The canonical text of a stage. -/
def render (s : Stage) : String :=
  (match s.label with
    | some label => label ++ ": "
    | none => "") ++ s.name ++
    String.join (s.parameters.entries.map fun e => renderParameter e.1 e.2)

end Stage

/-- The canonical text of a topology. -/
def Topology.render (t : Topology) : String :=
  (match t.source with
    | some source => ":" ++ source ++ " > "
    | none => "") ++ " | ".intercalate (t.stages.map Stage.render) ++
    (match t.sink with
      | some sink => " > :" ++ sink
      | none => "")

end StreamLang
