import TraceTables.Assoc

/-! Payloads that a trace sends once and refers to afterwards. A payload is known by the number of the field that
interned it and by its id; one that comes again replaces the earlier. -/

namespace TraceTables.Arguments

structure InternedId where
  fieldId : Nat
  iid : UInt64
deriving DecidableEq

abbrev InternedStore := Assoc InternedId (List UInt8)

end TraceTables.Arguments
