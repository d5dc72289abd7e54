import NibbleMachine.Proofs.Frame

/-!
One operation on one machine, both of them any at all. An operation fails exactly if it names
something that is not there, or follows a register that holds no address, and then nothing has
changed. If it does not fail, it writes one place at most: a register, a cell, the output log or the
program counter. Which place that is depends on the operation, and on the registers only where
these decide on an address or a jump.
-/

namespace NibbleMachine

/-! ### When an operation fails -/

namespace Operation

variable {o : Operation} {m : Machine}

/-- The registers that an operation names. The number in a `mov4` is that of a cell. -/
def registers : Operation → List Nat
  | mov1 rn _ => [rn]
  | mov2 rn _ => [rn]
  | mov3 rn rm => [rn, rm]
  | mov4 _ _ => []
  | add rd ra rb => [rd, ra, rb]
  | subt rd ra rb => [rd, ra, rb]
  | jz rn _ => [rn]
  | halt => []
  | mul rd ra rb => [rd, ra, rb]
  | load rd rs => [rd, rs]
  | readm _ => []

/-- The cell that an operation names. -/
def address? : Operation → Option Nat
  | mov1 _ addr => some addr
  | mov2 _ addr => some addr
  | mov4 addr _ => some addr
  | _ => none

/-- An operation names a register that is not there, or a cell, or it takes an address from a
    register that holds a value outside 0 to 255. -/
def Refused (o : Operation) (m : Machine) : Prop :=
  (∃ r ∈ o.registers, 16 ≤ r) ∨ (∃ a, o.address? = some a ∧ 256 ≤ a) ∨
    ∃ r v, o.pointer? = some r ∧ m.registers[r]? = some v ∧ ¬ (0 ≤ v.toInt ∧ v.toInt ≤ 255)

theorem inBounds_iff :
    o.InBounds ↔ (∀ r ∈ o.registers, r < 16) ∧ ∀ a ∈ o.address?, a < 256 := by
  cases o <;> simp [InBounds, registers, address?]

/-- A register that is not there holds nothing, so it is refused for its number alone. -/
theorem refused_iff_not_allowed : o.Refused m ↔ ¬ o.Allowed m := by
  constructor
  · rintro (⟨r, hr, hlarge⟩ | ⟨a, ha, hlarge⟩ | ⟨r, v, hr, hv, hvalue⟩) ⟨hbounds, hpointer⟩
    · exact absurd ((inBounds_iff.1 hbounds).1 r hr) (Nat.not_lt.2 hlarge)
    · exact absurd ((inBounds_iff.1 hbounds).2 a ha) (Nat.not_lt.2 hlarge)
    · rw [Machine.getElem?_registers (hbounds.pointer_lt hr)] at hv
      obtain rfl := Option.some.inj hv
      exact hvalue (hpointer r hr)
  · intro h
    by_cases hregisters : ∀ r ∈ o.registers, r < 16
    · by_cases haddress : ∀ a ∈ o.address?, a < 256
      · have hbounds : o.InBounds := inBounds_iff.2 ⟨hregisters, haddress⟩
        obtain ⟨r, hr, hvalue⟩ : ∃ r, o.pointer? = some r ∧ ¬ IsAddress (m.reg r) := by
          simpa using fun hpointer => h ⟨hbounds, hpointer⟩
        have hreg := Machine.getElem?_registers (m := m) (hbounds.pointer_lt hr)
        exact Or.inr (Or.inr ⟨r, _, hr, hreg, hvalue⟩)
      · exact Or.inr (Or.inl (by simpa using haddress))
    · exact Or.inl (by simpa using hregisters)

end Operation

/-! ### What an operation writes -/

/-- The places of a machine that an operation may write. -/
inductive Place where
  | register (r : Nat)
  | cell (a : Nat)
  | output
  | pc
  deriving DecidableEq, Repr

/-- `m.SameBut p m'`: the machine `m'` is `m`, but for the place `p` if there is one. -/
structure Machine.SameBut (p : Option Place) (m m' : Machine) : Prop where
  register : ∀ (r : Nat) (_ : r < 16), p ≠ some (.register r) → m'.registers[r] = m.registers[r]
  cell : ∀ (a : Nat) (_ : a < 256), p ≠ some (.cell a) → m'.memory[a] = m.memory[a]
  output : p ≠ some .output → m'.output = m.output
  pc : p ≠ some .pc → m'.pc = m.pc
  time : m'.time = m.time

namespace Operation

variable {o : Operation} {m m' : Machine}

/-- The place that an operation writes on a machine, if it writes one. -/
def place? (m : Machine) : Operation → Option Place
  | mov1 rn _ => some (.register rn)
  | mov2 _ addr => some (.cell addr)
  | mov3 rn _ => some (.cell (m.reg rn).toInt.toNat)
  | mov4 addr _ => some (.cell addr)
  | add rd _ _ => some (.register rd)
  | subt rd _ _ => some (.register rd)
  | jz rn _ => if m.reg rn = 0 then none else some .pc
  | halt => none
  | mul rd _ _ => some (.register rd)
  | load rd _ => some (.register rd)
  | readm _ => some .output

theorem place?_of_destination? {r : Nat} (h : o.destination? = some r) :
    o.place? m = some (.register r) := by
  cases o <;> simp_all [destination?, place?]

theorem place?_of_cell? {a : Nat} (h : o.cell? m = some a) : o.place? m = some (.cell a) := by
  cases o <;> simp_all [cell?, place?]

theorem place?_of_output? {v : Value} (h : o.output? = some v) : o.place? m = some .output := by
  rw [output?_eq_some_iff.1 h, place?]

theorem pc_effect (h : o.place? m ≠ some .pc) : (o.effect m).pc = m.pc := by
  cases o with
  | jz rn target =>
    have hzero : m.reg rn = 0 := by
      by_contra hne
      exact h (if_neg hne)
    rw [effect, if_pos hzero]
  | _ => rfl

/-- An operation writes no other place. -/
theorem sameBut_effect (o : Operation) (m : Machine) : m.SameBut (o.place? m) (o.effect m) where
  register r hr hplace := by
    rw [← Machine.reg_of_lt hr, ← Machine.reg_of_lt hr]
    exact reg_effect fun hdest => hplace (place?_of_destination? hdest)
  cell a ha hplace := by
    rw [← Machine.mem_of_lt ha, ← Machine.mem_of_lt ha]
    exact mem_effect fun hcell => hplace (place?_of_cell? hcell)
  output hplace := by
    refine effect_output_of_none (Option.eq_none_iff_forall_ne_some.2 fun v hv => ?_) m
    exact hplace (place?_of_output? hv)
  pc := pc_effect
  time := o.effect_time m

theorem signal_eq_halt_iff : o.signal = .halt ↔ o = .halt := by
  cases o <;> simp [signal]

/-- An operation is carried out as a whole or not at all. It fails exactly if it names a register
    from 16 on, or a cell from 256 on, or follows a register that holds a value outside 0 to 255,
    and the machine is then what it was. If it does not fail, it has its effect, which is on one
    place at most and never on the clock; `halt` has none, and it alone stops the machine. -/
theorem exec_all_or_nothing (o : Operation) (m : Machine) :
    ((∃ f m', o.exec m = .error f m') ↔ o.Refused m) ∧
    (∀ f m', o.exec m = .error f m' → m' = m) ∧
    ∀ signal m', o.exec m = .ok signal m' →
      m' = o.effect m ∧ m.SameBut (o.place? m) m' ∧ (o = .halt → m' = m) ∧
        (signal = .halt ↔ o = .halt) := by
  have hguarded := o.exec_guarded m
  rw [refused_iff_not_allowed]
  by_cases hallowed : o.Allowed m
  · rw [hguarded.1 hallowed]
    refine ⟨by simpa using hallowed, by simp, ?_⟩
    intro signal m' h
    obtain ⟨rfl, rfl⟩ : o.signal = signal ∧ o.effect m = m' := by simpa using h
    exact ⟨rfl, o.sameBut_effect m, fun ho => by rw [ho]; rfl, signal_eq_halt_iff⟩
  · obtain ⟨f, hf⟩ := hguarded.2 hallowed
    rw [hf]
    refine ⟨iff_of_true ⟨f, m, rfl⟩ hallowed, ?_, by simp⟩
    intro f' m' h
    obtain ⟨-, rfl⟩ : f = f' ∧ m = m' := by simpa using h
    rfl

/-- A register that holds 256 can be stored, but not followed. -/
theorem exec_all_or_nothing_pointer :
    ∃ m : Machine, (load 3 2).exec m = .error (.indirect 256) m ∧ (load 3 2).Refused m ∧
      ∃ m', (mov3 3 2).exec m = .ok .next m' ∧ m' = (mov3 3 2).effect m ∧
        m.SameBut (some (.cell 0)) m' := by
  let m := ({} : Machine).putReg 2 256
  have htwo : m.reg 2 = 256 := by rw [Machine.reg_putReg, if_pos (by decide)]
  have hthree : m.reg 3 = 0 := by rw [Machine.reg_putReg, if_neg (by decide), Machine.reg_fresh]
  have hload : (load 3 2).exec m = .error (.indirect 256) m := by
    have hvalue : ¬ IsAddress (m.reg 2) := by
      rw [htwo]
      decide
    rw [exec_eq_indirect (o := load 3 2) ⟨by decide, by decide⟩ rfl hvalue, htwo]
  have hstore : (mov3 3 2).exec m = .ok .next ((mov3 3 2).effect m) :=
    exec_eq_ok (o := mov3 3 2) ⟨by decide, by decide⟩ (by simp [pointer?, hthree, IsAddress])
  obtain ⟨heffect, hsame, -⟩ := (exec_all_or_nothing (mov3 3 2) m).2.2 _ _ hstore
  rw [place?, hthree] at hsame
  exact ⟨m, hload, (exec_all_or_nothing (load 3 2) m).1.1 ⟨_, _, hload⟩, _, hstore, heffect, hsame⟩

end Operation

end NibbleMachine
