namespace DurableScript.Power

/-- Where `Power` is open, `x ^ n` is the power of the core library, whatever others are imported. -/
scoped instance (priority := 2000) natural {α : Type} [NatPow α] : Pow α Nat := instPowNat

end DurableScript.Power
