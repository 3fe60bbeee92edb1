/-
Acatl.Net.QueryParameter — `HttpQueryParameter` of `http_query_parameter.cpp`.

The constructor decodes the whole query string first, and then looks for `'&'`
and `'='` in what has been decoded.
-/
import Acatl.StringHelper

namespace Acatl.Net

/-- `InvalidParameterException`. -/
structure InvalidParameter where
  message : Text
  deriving DecidableEq

/-- `HttpQueryParameter`, with the map of its parameters. -/
structure HttpQueryParameter where
  parameters : List (Text × Text) := []
  deriving DecidableEq

namespace HttpQueryParameter

/-- `_parameters[name] = value`. -/
def assign (name value : Text) (q : HttpQueryParameter) : HttpQueryParameter :=
  ⟨(name, value) :: q.parameters.filter fun e => e.1 ≠ name⟩

/-- The loop of the constructor for one piece; without `'='` it is left out. -/
def addParameter (q : HttpQueryParameter) (s : Text) : HttpQueryParameter :=
  if 61 ∈ s then
    q.assign (s.takeWhile (· ≠ 61)) ((s.dropWhile (· ≠ 61)).drop 1)
  else q

/-- The constructor. -/
def construct (query : Text) : Except InvalidParameter HttpQueryParameter :=
  match StringHelper.decode query with
  | (false, _) =>
    .error ⟨Text.ofString "Could not url decode '" ++ query ++ Text.ofString "'"⟩
  | (true, decoded) => .ok ((StringHelper.split decoded 38).foldl addParameter {})

/-- `_parameters.find(name)`. -/
def find (q : HttpQueryParameter) (name : Text) : Option Text :=
  (q.parameters.find? fun e => e.1 = name).map Prod.snd

/-- `hasParameter`. -/
def hasParameter (q : HttpQueryParameter) (name : Text) : Bool := (q.find name).isSome

/-- `parameter`. -/
def parameter (q : HttpQueryParameter) (name : Text) : Except InvalidParameter Text :=
  match q.find name with
  | none => .error ⟨Text.ofString "Parameter '" ++ name ++ Text.ofString "' not found"⟩
  | some value => .ok value

end HttpQueryParameter

end Acatl.Net
