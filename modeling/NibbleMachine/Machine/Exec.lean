import NibbleMachine.Machine.Basic

/-!
What each operation does to a machine. Every operation reads all that it needs before it writes,
and writes at most once, so a fault leaves the machine as it was.
-/

namespace NibbleMachine

/-- Whether the machine goes on after an operation. -/
inductive Signal where
  | next
  | halt
  deriving DecidableEq, Repr

namespace Operation

open Machine

/-- Puts the result of a binary operation on two registers into a third. -/
def combine (f : Value → Value → Value) (rd ra rb : Nat) : Action Signal := do
  let a ← register ra
  let b ← register rb
  setRegister rd (f a b)
  return .next

/-- Carries out an operation. Arithmetic wraps around in 64 bits. -/
def exec : Operation → Action Signal
  | mov1 rn addr => do
    let v ← cell addr
    setRegister rn v
    return .next
  | mov2 rn addr => do
    let v ← register rn
    setCell addr v
    return .next
  | mov3 rn rm => do
    let p ← register rn
    let addr ← address p
    let v ← register rm
    setCell addr v
    return .next
  | mov4 addr imm => do
    setCell addr imm
    return .next
  | add rd ra rb => combine (· + ·) rd ra rb
  | subt rd ra rb => combine (· - ·) rd ra rb
  | jz rn target => do
    let v ← register rn
    modify fun m => if v = 0 then m else m.setPc target
    return .next
  | halt => return .halt
  | mul rd ra rb => combine (· * ·) rd ra rb
  | load rd rs => do
    let p ← register rs
    let addr ← address p
    let v ← cell addr
    setRegister rd v
    return .next
  | readm imm => do
    modify (record imm)
    return .next

end Operation

end NibbleMachine
