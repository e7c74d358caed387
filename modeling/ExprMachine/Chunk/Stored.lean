import ExprMachine.Chunk.Basic
import ExprMachine.Json.Numeral
import ExprMachine.Json.Document
import ExprMachine.Json.Render

/-! Chunks as JSON documents. A number that is not finite is stored as null, which is no
number when it is read. -/

namespace ExprMachine

namespace Constant

def storedNumber (x : Float) : Json :=
  match Magnitude.ofFloat x with
  | .finite mantissa scale => .number (Layout.stored.finite (isNegative x) mantissa scale)
  | _ => .null

def toJson : Constant → Json
  | number bits => .object [(some "Number", storedNumber (Float.ofBits bits))]
  | text s => .object [(some "String", .string (some s))]

/-- A constant is an object with a single member. -/
def ofJson? : Json → Option Constant
  | .object [(some "Number", json)] => json.toFloat?.map fun x => number x.toBits
  | .object [(some "String", .string (some s))] => some (text s)
  | _ => none

end Constant

namespace Run

def toJson (r : Run) : Json :=
  .array [.number (toString r.line), .number (toString r.count)]

def ofJson? : Json → Option Run
  | .array [line, count] =>
    match line.toNat? Word.size, count.toNat? Word.size with
    | some line, some count => some ⟨line, count⟩
    | _, _ => none
  | _ => none

end Run

namespace LineTable

def toJson (t : LineTable) : Json :=
  .object [(some "runs", .array (t.runs.toList.map Run.toJson))]

def ofJson? (json : Json) : Option LineTable := do
  let [runs] ← json.fullRecord? ["runs"] | none
  let runs ← (← runs.asArray?).mapM Run.ofJson?
  return ⟨runs.toArray⟩

end LineTable

namespace Chunk

def toJson (c : Chunk) : Json :=
  .object
    [(some "code", .array (c.code.toList.map fun b => .number (toString b.toNat))),
      (some "constants", .array (c.constants.toList.map Constant.toJson)),
      (some "lines", c.lines.toJson)]

def ofJson? (json : Json) : Option Chunk := do
  let [code, constants, lines] ← json.fullRecord? ["code", "constants", "lines"] | none
  let code ← (← code.asArray?).mapM (Json.toNat? 256)
  let constants ← (← constants.asArray?).mapM Constant.ofJson?
  let lines ← LineTable.ofJson? lines
  return ⟨(code.map UInt8.ofNat).toArray, constants.toArray, lines⟩

def store (c : Chunk) : String :=
  c.toJson.write .compact

def storeIndented (c : Chunk) : String :=
  c.toJson.write .indented

def load? (text : String) : Option Chunk :=
  match Json.parse? text with
  | some json => ofJson? json
  | none => none

end Chunk

end ExprMachine
