import Calculator.Error

/-!
The two cells that outlive an evaluation. Both start at zero and refuse numbers that are not finite.
-/

namespace Calculator

structure Registers where
  memory : Float := 0
  lastAnswer : Float := 0
deriving DecidableEq

namespace Registers

/-- The name by which expressions refer to the last answer. -/
def answerName : String := "ans"

def setMemory (registers : Registers) (value : Float) : Except EvaluationError Registers :=
  if value.isFinite then .ok { registers with memory := value }
  else .error (.nonFiniteRegister value)

def setLastAnswer (registers : Registers) (value : Float) : Except EvaluationError Registers :=
  if value.isFinite then .ok { registers with lastAnswer := value }
  else .error (.nonFiniteRegister value)

def clearMemory (registers : Registers) : Registers :=
  { registers with memory := 0 }

end Registers
end Calculator
