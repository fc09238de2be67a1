import TraceTables.Schema.Decl

/-! What can go wrong with the fields of a message, and the one status in which all of it is summed up. -/

namespace TraceTables.Arguments

open Schema (FieldType)

inductive Fault where
  | unknownMessage (typeName : String)
  /-- a type whose values are not put into rows -/
  | unsupported (key : String) (type : FieldType)
  | wireMismatch (key : String) (declared : FieldType) (encoded : Wire.WireType)
  /-- bytes that cannot be read; the rest of the message or payload is left out -/
  | malformed (typeName key : String) (source : Wire.Fault)
  | overrideFailed (path reason : String)
  | internedMissing (key : String) (fieldId : Nat) (iid : UInt64)
  | tooDeep (key : String) (maxDepth : Nat)
  /-- several faults, of which only the first is kept -/
  | several (first : Fault) (count : Nat)
deriving DecidableEq

def Fault.message : Fault → String
  | unknownMessage typeName => "Unknown message type: " ++ typeName
  | unsupported key type => "Unsupported " ++ type.name ++ " field at '" ++ key ++ "'"
  | wireMismatch key declared encoded =>
    "Field '" ++ key ++ "' declared " ++ declared.name ++ " but encoded as " ++ encoded.name
  | malformed typeName key source => "Malformed " ++ typeName ++ " at '" ++ key ++ "': " ++ source.message
  | overrideFailed path reason => "Override for '" ++ path ++ "' failed: " ++ reason
  | internedMissing key fieldId iid =>
    "Interned entry " ++ toString iid.toNat ++ " of field " ++ toString fieldId ++ " not found (at '" ++
      key ++ "')"
  | tooDeep key maxDepth => "Nesting depth " ++ toString maxDepth ++ " exceeded at '" ++ key ++ "'"
  | several first count =>
    toString count ++ " fields failed to parse, first: " ++ first.message

/-- The status of a list of faults: none, the only one, or the first with their number. -/
def Fault.status : List Fault → Except Fault Unit
  | [] => .ok ()
  | [e] => .error e
  | e :: es => .error (.several e (es.length + 1))

end TraceTables.Arguments
