import QuantumCircuit.Json.Form
import QuantumCircuit.Pipeline

/-!
# Written forms around the cleanup

The options of a cleanup can be read and written; its statistics are only written. A field
that is left out of the options has its default, and no other fields are allowed.
-/

namespace QuantumCircuit

open Json

namespace CleanupStats

def toJson (s : CleanupStats) : String :=
  String.ofList (object
    [("final_resets_removed", Decimal.digits s.finalRemoved.toNat),
      ("duplicate_resets_removed", Decimal.digits s.duplicateRemoved.toNat)])

end CleanupStats

namespace CleanupOptions

structure Parts where
  mergeResets : Option Bool := none
  trimResets : Option Bool := none
  check : Option Bool := none

def record : Record Parts CleanupOptions where
  title := "struct PassConfig"
  fields :=
    [.of "consolidate_resets" (·.mergeResets) fun p b => { p with mergeResets := some b },
      .of "remove_final_reset" (·.trimResets) fun p b => { p with trimResets := some b },
      .of "verify_integrity" (·.check) fun p b => { p with check := some b }]
  blank := {}
  closed := true
  mayBeShort := true
  build p := return {
    mergeResets := p.mergeResets.getD ({} : CleanupOptions).mergeResets
    trimResets := p.trimResets.getD ({} : CleanupOptions).trimResets
    check := p.check.getD ({} : CleanupOptions).check }

end CleanupOptions

instance : Form CleanupOptions where
  write o := object
    [("consolidate_resets", Form.write o.mergeResets),
      ("remove_final_reset", Form.write o.trimResets), ("verify_integrity", Form.write o.check)]
  read := CleanupOptions.record.read

/-- The reason that is given for a text that cannot be read leaves out the line and the column. -/
def CleanupOptions.ofJson (text : String) : Except PassError CleanupOptions :=
  (decode text).mapError (.badConfiguration ·.message)

end QuantumCircuit
