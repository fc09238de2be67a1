/-! Powers with a natural exponent are those of core in all modules, whatever other instances are imported. -/

namespace TraceTables

@[default_instance 20000]
instance (priority := 20000) corePow {α : Type} [NatPow α] : Pow α Nat := instPowNat

end TraceTables
