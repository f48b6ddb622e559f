/-!
# Powers of whole numbers

A power of whole numbers is the one of the core library, in every module and whatever else is
imported there. The kernel computes it.
-/

attribute [instance (2000)] instPowNat

-- the same where the exponent is a numeral
attribute [default_instance 20000] instPowNat
