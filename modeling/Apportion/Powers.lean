/-
  Powers of numbers.

  In the modules that import this one `b ^ n` is the power of the core library, also where Mathlib
  knows it as the power of a monoid: definitions mean the same with and without Mathlib.
-/

attribute [default_instance 20000, instance (2000)] instPowNat
