import NibbleMachine.Machine.Basic
import NibbleMachine.Report.Basic

/-!
Dumps of a machine's state, each under its heading.
-/

namespace NibbleMachine.Machine

open Text

/-- All registers, a line each. -/
def registersDump (m : Machine) : Text :=
  utf8 "REGISTROS:\n"
    ++ m.registers.toList.zipIdx.flatMap fun (v, r) =>
      utf8 "  " ++ (Report.register r v).text ++ utf8 "\n"

/-- The memory cells that are not zero. -/
def memoryDump (m : Machine) : Text := utf8 "MEMORIA (no nula):\n" ++ (Report.memory m.memory).text

/-- The output log. -/
def outputDump (m : Machine) : Text := utf8 "SALIDA:\n" ++ (Report.output m.output).text

end NibbleMachine.Machine
