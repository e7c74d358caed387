/-! JSON documents as trees. Numbers are kept as they are written, and the members of an
object in their order. -/

namespace ExprMachine

inductive Json where
  | null
  | boolean (b : Bool)
  | number (text : String)
  /-- No text where an escape stands for half of a surrogate pair, which no string holds. -/
  | string (text : Option String)
  | array (items : List Json)
  | object (members : List (Option String × Json))

namespace Json

/-! Records: objects with known members, or arrays of the members' values in their order.
Members with other names are ignored. -/

/-- The value of the member with a name, which may stand there only once. -/
def member? (members : List (Option String × Json)) (name : String) : Option (Option Json) :=
  match members.filter (·.1 == some name) with
  | [] => some none
  | [(_, value)] => some (some value)
  | _ => none

/-- The values of the members with the given names, each of which may be missing. -/
def record? (names : List String) : Json → Option (List (Option Json))
  | object members =>
    if members.all (·.1.isSome) then names.mapM (member? members) else none
  | array items =>
    if items.length ≤ names.length then
      some (items.map some ++ List.replicate (names.length - items.length) none)
    else none
  | _ => none

/-- The values of the members with the given names, none of which may be missing. -/
def fullRecord? (names : List String) (json : Json) : Option (List Json) :=
  match json.record? names with
  | some values => values.mapM id
  | none => none

def asArray? : Json → Option (List Json)
  | array items => some items
  | _ => none

end Json

end ExprMachine
