import Mathlib.Data.List.Basic
import NibbleMachine.Machine.Exec

/-!
What operations do, without the checks. `effect` is the machine that an operation makes of another
one when nothing fails. An operation that names only registers and cells that are there, and whose
pointer holds an address, does just that; if only the pointer is at fault, it stops at the pointer
and leaves the machine as it was. Any operation at all has its effect or changes nothing.
-/

namespace NibbleMachine

/-! ### Actions -/

namespace Machine

variable {m m' : Machine} {α β : Type}

theorem bind_of_ok {a : Action α} {k : α → Action β} {x : α} (h : a m = .ok x m') :
    (a >>= k) m = k x m' := by
  simp only [bind, EStateM.bind, h]

theorem bind_of_error {a : Action α} {k : α → Action β} {f : Fault} (h : a m = .error f m') :
    (a >>= k) m = .error f m' := by
  simp only [bind, EStateM.bind, h]

/-- The value of a register, or zero if there is no such register. -/
def reg (m : Machine) (i : Nat) : Value := m.registers[i]?.getD 0

/-- The value of a cell, or zero if there is no such cell. -/
def mem (m : Machine) (a : Nat) : Value := m.memory[a]?.getD 0

/-- The machine with a register changed, if there is such a register. -/
def putReg (i : Nat) (v : Value) (m : Machine) : Machine :=
  { m with registers := m.registers.setIfInBounds i v }

/-- The machine with a cell changed, if there is such a cell. -/
def putMem (a : Nat) (v : Value) (m : Machine) : Machine :=
  { m with memory := m.memory.setIfInBounds a v }

theorem reg_fresh (i : Nat) : ({} : Machine).reg i = 0 := by
  rw [reg, Vector.getElem?_replicate]
  split <;> rfl

theorem mem_fresh (a : Nat) : ({} : Machine).mem a = 0 := by
  rw [mem, Vector.getElem?_replicate]
  split <;> rfl

theorem reg_of_lt {i : Nat} (h : i < 16) : m.reg i = m.registers[i] := by
  rw [reg, Vector.getElem?_eq_getElem h, Option.getD_some]

theorem mem_of_lt {a : Nat} (h : a < 256) : m.mem a = m.memory[a] := by
  rw [mem, Vector.getElem?_eq_getElem h, Option.getD_some]

theorem getElem?_registers {i : Nat} (h : i < 16) : m.registers[i]? = some (m.reg i) := by
  rw [Vector.getElem?_eq_getElem h, reg_of_lt h]

theorem set_eq_setIfInBounds {n i : Nat} (xs : Vector Value n) (h : i < n) (v : Value) :
    xs.set i v = xs.setIfInBounds i v := by
  ext j hj
  rw [Vector.getElem_set, Vector.getElem_setIfInBounds]

/-- A write into a row of values shows at its place only, if there is such a place. -/
theorem getD_setIfInBounds {n : Nat} (xs : Vector Value n) (i : Nat) (v : Value) (j : Nat) :
    (xs.setIfInBounds i v)[j]?.getD 0 = if i = j ∧ i < n then v else xs[j]?.getD 0 := by
  rw [Vector.getElem?_setIfInBounds]
  by_cases hi : i = j
  · subst hi
    by_cases hlt : i < n <;> simp [hlt]
  · simp [hi]

theorem reg_putReg (m : Machine) (i : Nat) (v : Value) (r : Nat) :
    (m.putReg i v).reg r = if i = r ∧ i < 16 then v else m.reg r :=
  getD_setIfInBounds m.registers i v r

theorem mem_putMem (m : Machine) (b : Nat) (v : Value) (a : Nat) :
    (m.putMem b v).mem a = if b = a ∧ b < 256 then v else m.mem a :=
  getD_setIfInBounds m.memory b v a

theorem register_of_lt {i : Nat} (h : i < 16) : register i m = .ok (m.reg i) m := by
  rw [register, dif_pos h, reg_of_lt h]

theorem setRegister_of_lt {i : Nat} (h : i < 16) (v : Value) :
    setRegister i v m = .ok () (m.putReg i v) := by
  rw [setRegister, dif_pos h, putReg, set_eq_setIfInBounds]

theorem cell_of_lt {a : Nat} (h : a < 256) : cell a m = .ok (m.mem a) m := by
  rw [cell, dif_pos h, mem_of_lt h]

theorem setCell_of_lt {a : Nat} (h : a < 256) (v : Value) :
    setCell a v m = .ok () (m.putMem a v) := by
  rw [setCell, dif_pos h, putMem, set_eq_setIfInBounds]

end Machine

/-! ### Addresses -/

/-- A value that is the address of a cell. -/
def IsAddress (v : Value) : Prop := 0 ≤ v.toInt ∧ v.toInt ≤ 255

instance (v : Value) : Decidable (IsAddress v) :=
  inferInstanceAs (Decidable (0 ≤ v.toInt ∧ v.toInt ≤ 255))

theorem isAddress_iff {v : Value} : IsAddress v ↔ 0 ≤ v ∧ v < 256 := by
  have h0 : (0 : Int64).toInt = 0 := rfl
  have h256 : (256 : Int64).toInt = 256 := rfl
  rw [IsAddress, Int64.le_iff_toInt_le, Int64.lt_iff_toInt_lt]
  omega

theorem IsAddress.lt {v : Value} (h : IsAddress v) : v.toInt.toNat < 256 := by
  have hle := h.2
  omega

theorem Machine.address_of_isAddress {v : Value} {m : Machine} (h : IsAddress v) :
    address v m = .ok v.toInt.toNat m := if_pos (isAddress_iff.1 h)

theorem Machine.address_of_not {v : Value} {m : Machine} (h : ¬ IsAddress v) :
    address v m = .error (.indirect v) m := if_neg fun hv => h (isAddress_iff.2 hv)

/-! ### Checks -/

namespace Machine

variable {m m' : Machine} {α β : Type} {x : α} {y : β} {g g' : Prop}

/-- `Guarded g a m x m'`: on the machine `m` the action gives `x` and leaves `m'` if `g` is true,
    and otherwise it fails and leaves `m` as it was. -/
def Guarded (g : Prop) (a : Action α) (m : Machine) (x : α) (m' : Machine) : Prop :=
  (g → a m = .ok x m') ∧ (¬ g → ∃ f, a m = .error f m)

theorem Guarded.congr {a : Action α} (h : Guarded g a m x m') (hg : g ↔ g') :
    Guarded g' a m x m' := propext hg ▸ h

/-- An action that only reads may stand before another one. -/
theorem Guarded.bind {a : Action α} {k : α → Action β} (ha : Guarded g a m x m)
    (hk : Guarded g' (k x) m y m') : Guarded (g ∧ g') (a >>= k) m y m' := by
  constructor
  · rintro ⟨hg, hg'⟩
    rw [bind_of_ok (ha.1 hg), hk.1 hg']
  · intro hnot
    by_cases hg : g
    · obtain ⟨f, hf⟩ := hk.2 fun hg' => hnot ⟨hg, hg'⟩
      exact ⟨f, by rw [bind_of_ok (ha.1 hg), hf]⟩
    · obtain ⟨f, hf⟩ := ha.2 hg
      exact ⟨f, bind_of_error hf⟩

/-- An action that writes may only stand before a result. -/
theorem Guarded.result {a : Action α} (ha : Guarded g a m x m') (y : β) :
    Guarded g (a >>= fun _ => pure y) m y m' := by
  constructor
  · intro hg
    exact bind_of_ok (ha.1 hg)
  · intro hg
    obtain ⟨f, hf⟩ := ha.2 hg
    exact ⟨f, bind_of_error hf⟩

theorem guarded_pure (x : α) (m : Machine) : Guarded True (pure x) m x m :=
  ⟨fun _ => rfl, fun hnot => absurd trivial hnot⟩

theorem guarded_modify (f : Machine → Machine) (m : Machine) :
    Guarded True (modify f) m () (f m) :=
  ⟨fun _ => rfl, fun hnot => absurd trivial hnot⟩

theorem guarded_register (i : Nat) (m : Machine) : Guarded (i < 16) (register i) m (m.reg i) m :=
  ⟨register_of_lt, fun h => ⟨_, dif_neg h⟩⟩

theorem guarded_setRegister (i : Nat) (v : Value) (m : Machine) :
    Guarded (i < 16) (setRegister i v) m () (m.putReg i v) :=
  ⟨fun h => setRegister_of_lt h v, fun h => ⟨_, dif_neg h⟩⟩

theorem guarded_cell (a : Nat) (m : Machine) : Guarded (a < 256) (cell a) m (m.mem a) m :=
  ⟨cell_of_lt, fun h => ⟨_, dif_neg h⟩⟩

theorem guarded_setCell (a : Nat) (v : Value) (m : Machine) :
    Guarded (a < 256) (setCell a v) m () (m.putMem a v) :=
  ⟨fun h => setCell_of_lt h v, fun h => ⟨_, dif_neg h⟩⟩

theorem guarded_address (v : Value) (m : Machine) :
    Guarded (IsAddress v) (address v) m v.toInt.toNat m :=
  ⟨address_of_isAddress, fun h => ⟨_, address_of_not h⟩⟩

end Machine

/-! ### Operations -/

namespace Operation

/-- The registers and cells that an operation names are there. -/
def InBounds : Operation → Prop
  | mov1 rn addr => rn < 16 ∧ addr < 256
  | mov2 rn addr => rn < 16 ∧ addr < 256
  | mov3 rn rm => rn < 16 ∧ rm < 16
  | mov4 addr _ => addr < 256
  | add rd ra rb => rd < 16 ∧ ra < 16 ∧ rb < 16
  | subt rd ra rb => rd < 16 ∧ ra < 16 ∧ rb < 16
  | jz rn _ => rn < 16
  | halt => True
  | mul rd ra rb => rd < 16 ∧ ra < 16 ∧ rb < 16
  | load rd rs => rd < 16 ∧ rs < 16
  | readm _ => True

/-- The register that an operation takes an address from. -/
def pointer? : Operation → Option Nat
  | mov3 rn _ => some rn
  | load _ rs => some rs
  | _ => none

/-- The machine that an operation makes of another one, if nothing fails. -/
def effect (m : Machine) : Operation → Machine
  | mov1 rn addr => m.putReg rn (m.mem addr)
  | mov2 rn addr => m.putMem addr (m.reg rn)
  | mov3 rn rm => m.putMem (m.reg rn).toInt.toNat (m.reg rm)
  | mov4 addr imm => m.putMem addr imm
  | add rd ra rb => m.putReg rd (m.reg ra + m.reg rb)
  | subt rd ra rb => m.putReg rd (m.reg ra - m.reg rb)
  | jz rn target => if m.reg rn = 0 then m else m.setPc target
  | halt => m
  | mul rd ra rb => m.putReg rd (m.reg ra * m.reg rb)
  | load rd rs => m.putReg rd (m.mem (m.reg rs).toInt.toNat)
  | readm imm => m.record imm

/-- Whether the machine goes on after an operation. -/
def signal : Operation → Signal
  | halt => .halt
  | _ => .next

theorem effect_time (o : Operation) (m : Machine) : (o.effect m).time = m.time := by
  cases o with
  | jz rn target =>
    rw [effect]
    split <;> rfl
  | _ => rfl

/-- Only a jump takes the program counter elsewhere. -/
theorem effect_pc (o : Operation) (m : Machine) :
    (o.effect m).pc = m.pc ∨ ∃ rn target, o = jz rn target ∧ (o.effect m).pc = target := by
  cases o with
  | jz rn target =>
    rw [effect]
    split
    · exact Or.inl rfl
    · exact Or.inr ⟨rn, target, rfl, rfl⟩
  | _ => exact Or.inl rfl

theorem InBounds.pointer_lt {o : Operation} (ho : o.InBounds) {r : Nat}
    (hr : o.pointer? = some r) : r < 16 := by
  cases o with
  | mov3 rn rm => exact Option.some.inj hr ▸ ho.1
  | load rd rs => exact Option.some.inj hr ▸ ho.2
  | _ => contradiction

open Machine

/-- An operation can be carried out: what it names is there, and its pointer holds an address. -/
def Allowed (o : Operation) (m : Machine) : Prop :=
  o.InBounds ∧ ∀ r ∈ o.pointer?, IsAddress (m.reg r)

theorem combine_guarded (f : Value → Value → Value) (rd ra rb : Nat) (m : Machine) :
    Guarded (rd < 16 ∧ ra < 16 ∧ rb < 16) (combine f rd ra rb) m .next
      (m.putReg rd (f (m.reg ra) (m.reg rb))) :=
  ((guarded_register ra m).bind ((guarded_register rb m).bind
    ((guarded_setRegister rd _ m).result _))).congr (by rw [← and_assoc, and_comm])

/-- Whatever an operation names, it has its effect if it can be carried out, and otherwise it fails
    and nothing has changed. -/
theorem exec_guarded (o : Operation) (m : Machine) :
    Guarded (o.Allowed m) o.exec m o.signal (o.effect m) := by
  cases o with
  | mov1 rn addr =>
    refine ((guarded_cell addr m).bind ((guarded_setRegister rn _ m).result _)).congr ?_
    simp [Allowed, InBounds, pointer?, and_comm]
  | mov2 rn addr =>
    refine ((guarded_register rn m).bind ((guarded_setCell addr _ m).result _)).congr ?_
    simp [Allowed, InBounds, pointer?]
  | mov3 rn rm =>
    refine ((guarded_register rn m).bind ((guarded_address _ m).bind
      ((guarded_register rm m).bind ((guarded_setCell _ _ m).result _)))).congr ?_
    -- the address that a pointer holds is that of a cell
    have hcell := @IsAddress.lt (m.reg rn)
    simp only [Allowed, InBounds, pointer?, Option.mem_some_iff, forall_eq']
    tauto
  | mov4 addr imm =>
    refine ((guarded_setCell addr imm m).result _).congr ?_
    simp [Allowed, InBounds, pointer?]
  | add rd ra rb =>
    refine (combine_guarded _ rd ra rb m).congr ?_
    simp [Allowed, InBounds, pointer?]
  | subt rd ra rb =>
    refine (combine_guarded _ rd ra rb m).congr ?_
    simp [Allowed, InBounds, pointer?]
  | jz rn target =>
    refine ((guarded_register rn m).bind ((guarded_modify _ m).result _)).congr ?_
    simp [Allowed, InBounds, pointer?]
  | halt =>
    refine (guarded_pure _ m).congr ?_
    simp [Allowed, InBounds, pointer?]
  | mul rd ra rb =>
    refine (combine_guarded _ rd ra rb m).congr ?_
    simp [Allowed, InBounds, pointer?]
  | load rd rs =>
    refine ((guarded_register rs m).bind ((guarded_address _ m).bind
      ((guarded_cell _ m).bind ((guarded_setRegister rd _ m).result _)))).congr ?_
    have hcell := @IsAddress.lt (m.reg rs)
    simp only [Allowed, InBounds, pointer?, Option.mem_some_iff, forall_eq']
    tauto
  | readm imm =>
    refine ((guarded_modify _ m).result _).congr ?_
    simp [Allowed, InBounds, pointer?]

/-- Within bounds and with an address in its pointer, an operation has its effect. -/
theorem exec_eq_ok {o : Operation} (ho : o.InBounds) {m : Machine}
    (hp : ∀ r ∈ o.pointer?, IsAddress (m.reg r)) : o.exec m = .ok o.signal (o.effect m) :=
  (o.exec_guarded m).1 ⟨ho, hp⟩

/-- A pointer that holds no address stops its operation, and nothing has changed. -/
theorem exec_eq_indirect {o : Operation} (ho : o.InBounds) {m : Machine} {r : Nat}
    (hr : o.pointer? = some r) (hv : ¬ IsAddress (m.reg r)) :
    o.exec m = .error (.indirect (m.reg r)) m := by
  cases o with
  | mov3 rn rm =>
    obtain rfl : rn = r := Option.some.inj hr
    rw [exec, bind_of_ok (register_of_lt ho.1), bind_of_error (address_of_not hv)]
  | load rd rs =>
    obtain rfl : rs = r := Option.some.inj hr
    rw [exec, bind_of_ok (register_of_lt ho.2), bind_of_error (address_of_not hv)]
  | _ => contradiction

/-- Within bounds, an operation fails exactly if its pointer holds no address. -/
theorem exec_eq_error_iff {o : Operation} (ho : o.InBounds) {m m' : Machine} {f : Fault} :
    o.exec m = .error f m' ↔
      ∃ r, o.pointer? = some r ∧ ¬ IsAddress (m.reg r) ∧ f = .indirect (m.reg r) ∧ m' = m := by
  by_cases hp : ∀ r ∈ o.pointer?, IsAddress (m.reg r)
  · rw [exec_eq_ok ho hp]
    simp only [reduceCtorEq, false_iff]
    rintro ⟨r, hr, hv, -⟩
    exact hv (hp r hr)
  · obtain ⟨r, hr, hv⟩ : ∃ r, o.pointer? = some r ∧ ¬ IsAddress (m.reg r) := by simpa using hp
    rw [exec_eq_indirect ho hr hv, EStateM.Result.error.injEq]
    constructor
    · rintro ⟨rfl, rfl⟩
      exact ⟨r, hr, hv, rfl, rfl⟩
    · rintro ⟨q, hq, -, rfl, rfl⟩
      obtain rfl : r = q := Option.some.inj (hr.symm.trans hq)
      exact ⟨rfl, rfl⟩

end Operation

/-! ### All or nothing -/

/-- `Atomic a m x m'`: on the machine `m` the action gives `x` and leaves `m'`, or it fails and
    leaves `m` as it was. -/
def Machine.Atomic {α : Type} (a : Action α) (m : Machine) (x : α) (m' : Machine) : Prop :=
  a m = .ok x m' ∨ ∃ f, a m = .error f m

/-- Whatever an operation names, it has its effect or it fails and nothing has changed. -/
theorem Operation.exec_atomic (o : Operation) (m : Machine) :
    Machine.Atomic o.exec m o.signal (o.effect m) := by
  by_cases h : o.Allowed m
  · exact Or.inl ((o.exec_guarded m).1 h)
  · exact Or.inr ((o.exec_guarded m).2 h)

end NibbleMachine
