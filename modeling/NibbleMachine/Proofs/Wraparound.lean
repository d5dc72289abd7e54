import Mathlib.Algebra.Ring.Int.Defs
import NibbleMachine.Proofs.Execution
import NibbleMachine.Proofs.Programs

/-!
Arithmetic is exact modulo 2^64. Beside the machine stands an ideal one, whose registers and cells
hold integers of any size. As long as operations only move and compute numbers, and never look at
one to see where to go, the machine holds at each place the ideal number reduced to 64 bits. Sums,
differences and products of reduced numbers are the reduced sums, differences and products, so it
does not matter how often numbers have grown too large on the way: a result that fits is exact.
-/

namespace NibbleMachine

/-! ### The ideal machine -/

/-- A machine whose registers and cells hold integers of any size. -/
structure Ideal where
  reg : Nat → Int
  mem : Nat → Int

namespace Ideal

/-- The ideal machine that holds what a machine holds. -/
def ofMachine (m : Machine) : Ideal where
  reg r := (m.reg r).toInt
  mem a := (m.mem a).toInt

/-- The machine with a register changed. -/
def putReg (i : Ideal) (r : Nat) (x : Int) : Ideal := { i with reg := Function.update i.reg r x }

/-- The machine with a cell changed. -/
def putMem (i : Ideal) (a : Nat) (x : Int) : Ideal := { i with mem := Function.update i.mem a x }

/-- The operations that move and compute numbers, without a look at what they are. -/
def straight : List Opcode := [.mov1, .mov2, .mov4, .add, .subt, .mul, .readm]

/-- Carries out a straight operation. The others would need a pointer or a program counter. -/
def exec (i : Ideal) : Operation → Ideal
  | .mov1 rn addr => i.putReg rn (i.mem addr)
  | .mov2 rn addr => i.putMem addr (i.reg rn)
  | .mov4 addr imm => i.putMem addr imm.toInt
  | .add rd ra rb => i.putReg rd (i.reg ra + i.reg rb)
  | .subt rd ra rb => i.putReg rd (i.reg ra - i.reg rb)
  | .mul rd ra rb => i.putReg rd (i.reg ra * i.reg rb)
  | .readm _ => i
  | .mov3 .. | .jz .. | .halt | .load .. => i

/-- Carries out operations one after the other. -/
def execAll (i : Ideal) (ops : List Operation) : Ideal := ops.foldl exec i

end Ideal

/-! ### Reduction to 64 bits -/

/-- A write goes into a row of reduced numbers as it goes into the numbers themselves. -/
theorem getD_update {n : Nat} {xs : Vector Value n} {f : Nat → Int}
    (h : ∀ j, xs[j]?.getD 0 = Int64.ofInt (f j)) {k : Nat} (hk : k < n) {x : Int} {v : Value}
    (hv : v = Int64.ofInt x) (j : Nat) :
    (xs.setIfInBounds k v)[j]?.getD 0 = Int64.ofInt (Function.update f k x j) := by
  rw [Machine.getD_setIfInBounds]
  by_cases hj : k = j
  · rw [if_pos ⟨hj, hk⟩, hv, hj, Function.update_self]
  · rw [if_neg fun hboth => hj hboth.1, Function.update_of_ne (Ne.symm hj), h]

/-- Every register and every cell of `m` holds the number of `i` reduced to 64 bits. -/
structure Reduces (i : Ideal) (m : Machine) : Prop where
  reg : ∀ r, m.reg r = Int64.ofInt (i.reg r)
  mem : ∀ a, m.mem a = Int64.ofInt (i.mem a)

namespace Reduces

variable {i : Ideal} {m : Machine}

theorem ofMachine (m : Machine) : Reduces (.ofMachine m) m where
  reg _ := (Int64.ofInt_toInt _).symm
  mem _ := (Int64.ofInt_toInt _).symm

theorem putReg (h : Reduces i m) {rd : Nat} (hrd : rd < 16) {x : Int} {v : Value}
    (hv : v = Int64.ofInt x) : Reduces (i.putReg rd x) (m.putReg rd v) :=
  ⟨getD_update h.reg hrd hv, h.mem⟩

theorem putMem (h : Reduces i m) {b : Nat} (hb : b < 256) {x : Int} {v : Value}
    (hv : v = Int64.ofInt x) : Reduces (i.putMem b x) (m.putMem b v) :=
  ⟨h.reg, getD_update h.mem hb hv⟩

/-- A straight operation keeps to the reduced numbers. -/
theorem effect (h : Reduces i m) {o : Operation} (ho : o.opcode ∈ Ideal.straight)
    (hbounds : o.InBounds) : Reduces (i.exec o) (o.effect m) := by
  cases o with
  | mov1 rn addr => exact h.putReg hbounds.1 (h.mem addr)
  | mov2 rn addr => exact h.putMem hbounds.2 (h.reg rn)
  | mov4 addr imm => exact h.putMem hbounds (Int64.ofInt_toInt imm).symm
  | add rd ra rb => exact h.putReg hbounds.1 (by rw [h.reg, h.reg, Int64.ofInt_add])
  | subt rd ra rb => exact h.putReg hbounds.1 (by rw [h.reg, h.reg, Int64.ofInt_sub])
  | mul rd ra rb => exact h.putReg hbounds.1 (by rw [h.reg, h.reg, Int64.ofInt_mul])
  | readm imm => exact ⟨h.reg, h.mem⟩
  | mov3 | jz | halt | load => simp [Operation.opcode, Ideal.straight] at ho

end Reduces

/-! ### Rows of operations -/

namespace Operation

open Machine

variable {m : Machine}

/-- A straight operation within bounds does not fail, and the machine goes on after it. -/
theorem exec_straight {o : Operation} (ho : o.opcode ∈ Ideal.straight) (hbounds : o.InBounds) :
    o.exec m = .ok .next (o.effect m) := by
  have hpointer : o.pointer? = none := by
    cases o <;> simp_all [opcode, Ideal.straight, pointer?]
  have hsignal : o.signal = .next := by
    cases o <;> simp_all [opcode, Ideal.straight, signal]
  rw [exec_eq_ok hbounds (by simp [hpointer]), hsignal]

/-- Straight operations are carried out to the last, and keep to the reduced numbers. -/
theorem mapM_exec : ∀ {ops : List Operation} {i : Ideal} {m : Machine}, Reduces i m →
    (∀ o ∈ ops, o.opcode ∈ Ideal.straight ∧ o.InBounds) →
    ∃ m', ops.mapM exec m = .ok (ops.map fun _ => .next) m' ∧ Reduces (i.execAll ops) m'
  | [], i, m, h, _ => ⟨m, rfl, h⟩
  | o :: ops, i, m, h, hops => by
    obtain ⟨hstraight, hbounds⟩ := hops o List.mem_cons_self
    obtain ⟨m', hrest, hreduces⟩ := mapM_exec (h.effect hstraight hbounds) fun o' ho' =>
      hops o' (List.mem_cons_of_mem o ho')
    refine ⟨m', ?_, hreduces⟩
    rw [List.mapM_cons, bind_of_ok (exec_straight hstraight hbounds), bind_of_ok hrest]
    rfl

/-- Arithmetic is exact modulo 2^64 over whole computations. Let straight operations that name
    registers up to 15 and addresses up to 255 be carried out on any machine. None of them fails,
    and each register and each cell then holds what it holds on the ideal machine after the same
    operations, reduced modulo 2^64 to a number from -2^63 up to 2^63 - 1. So a number that is in
    this range on the ideal machine is exact, whatever has overflowed before it. -/
theorem arithmetic_is_exact_modulo (ops : List Operation)
    (hops : ∀ o ∈ ops,
      o.opcode ∈ [.mov1, .mov2, .mov4, .add, .subt, .mul, .readm] ∧ o.InBounds) (m : Machine) :
    ∃ m', ops.mapM exec m = .ok (ops.map fun _ => .next) m' ∧
      (∀ (r : Nat) (_ : r < 16),
        m'.registers[r].toInt = (((Ideal.ofMachine m).execAll ops).reg r).bmod (2 ^ 64)) ∧
      (∀ (a : Nat) (_ : a < 256),
        m'.memory[a].toInt = (((Ideal.ofMachine m).execAll ops).mem a).bmod (2 ^ 64)) ∧
      (∀ (r : Nat) (_ : r < 16) (x : Int), ((Ideal.ofMachine m).execAll ops).reg r = x →
        -2 ^ 63 ≤ x → x < 2 ^ 63 → m'.registers[r].toInt = x) ∧
      ∀ (a : Nat) (_ : a < 256) (x : Int), ((Ideal.ofMachine m).execAll ops).mem a = x →
        -2 ^ 63 ≤ x → x < 2 ^ 63 → m'.memory[a].toInt = x := by
  obtain ⟨m', hexec, hreduces⟩ := mapM_exec (.ofMachine m) hops
  refine ⟨m', hexec, fun r hr => ?_, fun a ha => ?_, fun r hr x hx hlow hhigh => ?_,
    fun a ha x hx hlow hhigh => ?_⟩
  · rw [← reg_of_lt hr, hreduces.reg, Int64.toInt_ofInt]
    rfl
  · rw [← mem_of_lt ha, hreduces.mem, Int64.toInt_ofInt]
    rfl
  · rw [← reg_of_lt hr, hreduces.reg, hx, Int64.toInt_ofInt_of_le hlow hhigh]
  · rw [← mem_of_lt ha, hreduces.mem, hx, Int64.toInt_ofInt_of_le hlow hhigh]

/-- A sum and a product overflow, and the difference that is computed from the sum is right. -/
theorem arithmetic_is_exact_modulo_overflowing :
    ∃ m m' : Machine, m.registers[8].toInt = 2 ^ 62 ∧
      [add 9 8 8, mul 10 9 8, subt 11 9 8, readm 9, mov2 11 255].mapM exec m =
        .ok [.next, .next, .next, .next, .next] m' ∧
      m'.registers[9].toInt = -2 ^ 63 ∧ m'.registers[10].toInt = 0 ∧
      m'.registers[11].toInt = 2 ^ 62 ∧ m'.memory[255].toInt = 2 ^ 62 := by
  let m := ({} : Machine).putReg 8 (Int64.ofInt (2 ^ 62))
  let ops := [add 9 8 8, mul 10 9 8, subt 11 9 8, readm 9, mov2 11 255]
  have hops : ∀ o ∈ ops,
      o.opcode ∈ [.mov1, .mov2, .mov4, .add, .subt, .mul, .readm] ∧ o.InBounds := by
    simp [ops, opcode, InBounds]
  obtain ⟨m', hexec, hreg, -, hregExact, hmemExact⟩ := arithmetic_is_exact_modulo ops hops m
  -- what the ideal machine holds is computed from the start
  have hsum : ((Ideal.ofMachine m).execAll ops).reg 9 = 2 ^ 63 := by decide +kernel
  have hproduct : ((Ideal.ofMachine m).execAll ops).reg 10 = 2 ^ 125 := by decide +kernel
  have hdifference : ((Ideal.ofMachine m).execAll ops).reg 11 = 2 ^ 62 := by decide +kernel
  have hstored : ((Ideal.ofMachine m).execAll ops).mem 255 = 2 ^ 62 := by decide +kernel
  refine ⟨m, m', by decide +kernel, hexec, ?_, ?_, ?_, ?_⟩
  · rw [hreg, hsum]
    decide
  · rw [hreg, hproduct]
    decide
  · exact hregExact 11 (by decide) _ hdifference (by decide) (by decide)
  · exact hmemExact 255 (by decide) _ hstored (by decide) (by decide)

end Operation

end NibbleMachine
