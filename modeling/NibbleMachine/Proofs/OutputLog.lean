import Mathlib.Order.Bounds.Basic
import NibbleMachine.Proofs.History

/-!
The output log as a record of what was carried out. A `readm` puts its value into the log at the
current time, and the clock has moved on once for every operation that was carried out. So the log
has at place `t` what the operation number `t` has put out, zero where that was no `readm`, and it
reaches as far as the last `readm`. A fault leaves clock and log alone.
-/

namespace NibbleMachine

/-! ### Operations and the log -/

namespace Operation

/-- The value that an operation puts out, if it puts one out. -/
def output? : Operation → Option Value
  | readm imm => some imm
  | _ => none

theorem output?_eq_some_iff {o : Operation} {v : Value} : o.output? = some v ↔ o = readm v := by
  cases o <;> simp [output?]

theorem effect_output_of_none {o : Operation} (h : o.output? = none) (m : Machine) :
    (o.effect m).output = m.output := by
  cases o with
  | jz rn target =>
    rw [effect]
    split <;> rfl
  | readm imm => contradiction
  | _ => rfl

end Operation

namespace Machine

variable (m : Machine) (v : Value)

/-- Before the last time there is, the log is filled up as far as it has to. -/
theorem output_record (h : m.time.toNat + 1 < 2 ^ 64) : (m.record v).output =
    (m.output.rightpad (m.time.toNat + 1) 0).setIfInBounds m.time.toNat v := by
  have hsize : (m.time + 1).toNat = m.time.toNat + 1 := by
    rw [UInt64.toNat_add]
    exact Nat.mod_eq_of_lt h
  rw [record, hsize]
  by_cases hfar : m.output.size ≤ m.time.toNat
  · rw [if_pos hfar, Array.shrink_eq_take, Array.take, Array.extract_eq_self_of_le (by omega)]
  · have hnone : m.time.toNat + 1 - m.output.size = 0 := by omega
    rw [if_neg hfar, Array.rightpad, hnone, Array.replicate_zero, Array.append_empty]

/-- At the last time there is, the log is emptied. -/
theorem output_record_of_last (h : m.time.toNat + 1 = 2 ^ 64)
    (hfar : m.output.size ≤ m.time.toNat) : (m.record v).output = #[] := by
  have hsize : (m.time + 1).toNat = 0 := by
    rw [UInt64.toNat_add, UInt64.toNat_one, h, Nat.mod_self]
  rw [record, hsize, if_pos hfar]
  simp [Array.rightpad]

theorem size_record (h : m.time.toNat + 1 < 2 ^ 64) :
    (m.record v).output.size = max m.output.size (m.time.toNat + 1) := by
  rw [output_record m v h, Array.size_setIfInBounds, Array.rightpad, Array.size_append,
    Array.size_replicate]
  omega

/-- Putting a value out changes the log at the current time only. -/
theorem getD_record (h : m.time.toNat + 1 < 2 ^ 64) (t : Nat) : (m.record v).output[t]?.getD 0 =
    if t = m.time.toNat then v else m.output[t]?.getD 0 := by
  have hpad : ∀ n, (m.output.rightpad n 0)[t]?.getD 0 = m.output[t]?.getD 0 := by
    intro n
    rw [Array.rightpad, Array.getElem?_append, Array.getElem?_replicate]
    split
    · rfl
    · rw [Array.getElem?_eq_none (by omega)]
      split <;> rfl
  have hsize : m.time.toNat < (m.output.rightpad (m.time.toNat + 1) 0).size := by
    rw [Array.rightpad, Array.size_append, Array.size_replicate]
    omega
  rw [output_record m v h, Array.getElem?_setIfInBounds]
  by_cases ht : t = m.time.toNat
  · rw [if_pos ht, if_pos ht.symm, if_pos hsize, Option.getD_some]
  · rw [if_neg ht, if_neg (Ne.symm ht), hpad]

end Machine

/-! ### Records -/

/-- `Records ops log`: the log tells what each operation of the row has put out. -/
structure Records (ops : List Operation) (log : Array Value) : Prop where
  /-- it has a place for everything that was put out -/
  covers : ∀ {t : Nat} {v : Value}, ops[t]? = some (.readm v) → t < log.size
  /-- it has what was put out, and zero otherwise -/
  entry : ∀ {t : Nat} {o : Operation}, ops[t]? = some o → log[t]?.getD 0 = o.output?.getD 0
  /-- it ends where something was put out last -/
  ends : ∀ {t : Nat}, log.size = t + 1 → ∃ v, ops[t]? = some (.readm v)

/-- A place in a row with one more operation is one of the row, or it is the last. -/
theorem getElem?_snoc_eq_some_iff {ops : List Operation} {o o' : Operation} {t : Nat} :
    (ops ++ [o])[t]? = some o' ↔ ops[t]? = some o' ∨ t = ops.length ∧ o = o' := by
  grind

namespace Records

variable {ops : List Operation} {log : Array Value}

theorem nil : Records [] #[] := by
  constructor <;> simp

theorem size_le (h : Records ops log) : log.size ≤ ops.length := by
  cases hsize : log.size with
  | zero => exact Nat.zero_le _
  | succ t =>
    obtain ⟨v, hv⟩ := h.ends hsize
    exact (List.getElem?_eq_some_iff.1 hv).1

/-- An operation that puts nothing out leaves the record as it was. -/
theorem append_of_none (h : Records ops log) {o : Operation} (ho : o.output? = none) :
    Records (ops ++ [o]) log := by
  have hle := h.size_le
  refine ⟨?_, ?_, ?_⟩
  · intro t v hv
    rcases getElem?_snoc_eq_some_iff.1 hv with hv | ⟨-, rfl⟩
    · exact h.covers hv
    · contradiction
  · intro t o' ho'
    rcases getElem?_snoc_eq_some_iff.1 ho' with ho' | ⟨rfl, rfl⟩
    · exact h.entry ho'
    · rw [Array.getElem?_eq_none hle, ho]
  · intro t ht
    obtain ⟨v, hv⟩ := h.ends ht
    exact ⟨v, getElem?_snoc_eq_some_iff.2 (Or.inl hv)⟩

/-- A value that is put out when the clock stands at the number of operations before it goes to the
    place behind theirs. -/
theorem append_readm {m : Machine} (h : Records ops m.output) (hm : m.time.toNat = ops.length)
    (hlen : ops.length + 1 < 2 ^ 64) (v : Value) :
    Records (ops ++ [.readm v]) (m.record v).output := by
  have hle := h.size_le
  rw [← hm] at hlen
  have hsize : (m.record v).output.size = ops.length + 1 := by
    rw [m.size_record v hlen, hm]
    omega
  refine ⟨?_, ?_, ?_⟩
  · intro t w hw
    have ht := (List.getElem?_eq_some_iff.1 hw).1
    rw [List.length_append, List.length_singleton] at ht
    rwa [hsize]
  · intro t o ho
    rw [m.getD_record v hlen, hm]
    rcases getElem?_snoc_eq_some_iff.1 ho with ho | ⟨rfl, rfl⟩
    · have ht := (List.getElem?_eq_some_iff.1 ho).1
      rw [if_neg (Nat.ne_of_lt ht), h.entry ho]
    · rw [if_pos rfl]
      rfl
  · intro t ht
    obtain rfl : t = ops.length := by omega
    exact ⟨v, getElem?_snoc_eq_some_iff.2 (Or.inr ⟨rfl, rfl⟩)⟩

theorem eq_empty (h : Records ops log) (hops : ∀ v, .readm v ∉ ops) : log = #[] := by
  cases hsize : log.size with
  | zero => exact Array.eq_empty_of_size_eq_zero hsize
  | succ t =>
    obtain ⟨v, hv⟩ := h.ends hsize
    exact absurd (List.mem_of_getElem? hv) (hops v)

theorem size_eq (h : Records ops log) {t : Nat}
    (ht : IsGreatest {t | ∃ v, ops[t]? = some (.readm v)} t) : log.size = t + 1 := by
  obtain ⟨⟨v, hv⟩, hlast⟩ := ht
  have hlt := h.covers hv
  obtain ⟨n, hn⟩ : ∃ n, log.size = n + 1 := ⟨log.size - 1, by omega⟩
  have hle : n ≤ t := hlast (h.ends hn)
  omega

/-- An entry of the log is what the operation of its place has put out, or else zero. -/
theorem getElem?_cases (h : Records ops log) {t : Nat} {v : Value} (hv : log[t]? = some v) :
    ops[t]? = some (.readm v) ∨ (∀ imm, ops[t]? ≠ some (.readm imm)) ∧ v = 0 := by
  have ht : t < log.size := (Array.getElem?_eq_some_iff.1 hv).1
  obtain ⟨o, ho⟩ : ∃ o, ops[t]? = some o :=
    ⟨_, List.getElem?_eq_getElem (Nat.lt_of_lt_of_le ht h.size_le)⟩
  have hentry := h.entry ho
  rw [hv, Option.getD_some] at hentry
  cases hout : o.output? with
  | none =>
    refine Or.inr ⟨fun imm himm => ?_, by rw [hentry, hout, Option.getD_none]⟩
    obtain rfl : o = .readm imm := Option.some.inj (ho.symm.trans himm)
    contradiction
  | some imm =>
    rw [hout, Option.getD_some] at hentry
    rw [hentry, ← Operation.output?_eq_some_iff.1 hout]
    exact Or.inl ho

end Records

/-! ### Sessions -/

namespace Session

/-- The clock tells how many operations were carried out, and the log records them. -/
def Logged (ops : List Operation) (s : Session) : Prop :=
  s.machine.time = UInt64.ofNat ops.length ∧
    (ops.length < 2 ^ 64 → Records ops s.machine.output)

theorem Logged.carry {ops : List Operation} {s : Session} (h : Logged ops s) (o : Operation) :
    Logged (ops ++ [o]) (s.carry o) := by
  obtain ⟨htime, hlog⟩ := h
  constructor
  · rw [List.length_append, List.length_singleton, UInt64.ofNat_add, ← htime, carry_time]
    rfl
  · intro hlen
    rw [List.length_append, List.length_singleton] at hlen
    have hrecords := hlog (by omega)
    show Records _ (o.effect _).output
    cases hout : o.output? with
    | none =>
      rw [Operation.effect_output_of_none hout]
      exact hrecords.append_of_none hout
    | some v =>
      obtain rfl := Operation.output?_eq_some_iff.1 hout
      refine Records.append_readm (m := s.machine.setPc (s.machine.pc + 1)) hrecords ?_ hlen v
      show s.machine.time.toNat = _
      rw [htime]
      exact UInt64.toNat_ofNat_of_lt' (by rw [UInt64.size]; omega)

theorem Traced.logged {files : Files} {p : Program} {ops : List Operation} {s : Session}
    (h : Traced files p ops s) : Logged ops s := by
  refine h.induction_on ⟨rfl, fun _ => Records.nil⟩ ?_ ?_
  · intro ops t i ht _
    exact ht.carry i.operation
  · intro ops t i ht _
    exact ht

end Session

/-- What an assembled `readm` puts out fits twelve bits. -/
theorem Instruction.Assembled.readm_range {i : Instruction} (h : i.Assembled) {imm : Value}
    (ho : i.operation = .readm imm) : 0 ≤ imm.toInt ∧ imm.toInt ≤ 4095 := by
  have hname : i.op = .readm := by rw [h.op_eq, ho, Operation.opcode]
  obtain ⟨-, hop⟩ := Operation.ofArgs_eq_ok_iff.1 h.operation
  have hfits := h.fits
  rw [hname] at hop hfits
  obtain rfl : Operation.value (i.args.getD 0 0) = imm := Operation.readm.inj (hop.trans ho)
  have hlt : (i.args.getD 0 0).toNat < 2 ^ 12 := hfits.immediate_lt rfl
  rw [Operation.toInt_value]
  omega

namespace Session

/-- The output log is an exact record of the operations since the load, as long as there are fewer
    than 2^64 of them: it reaches up to the last `readm`, and at each place it has the value of the
    `readm` that was carried out at this time, or zero if that was another operation. -/
theorem output_records_readm (files : Files) (p : Program) :
    (∀ rs : List Request, (∀ r ∈ rs, r.drives = true) → ∀ o ∈ (start p).performAll files rs,
      ∃ ops, Traced files p ops o.session) ∧
    ∀ (ops : List Operation) (s : Session), Traced files p ops s → ops.length < 2 ^ 64 →
      ((∀ imm, .readm imm ∉ ops) → s.machine.output = #[]) ∧
      (∀ t : Nat, IsGreatest {t | ∃ imm, ops[t]? = some (.readm imm)} t →
        s.machine.output.size = t + 1) ∧
      (∀ (t : Nat) (v : Value), s.machine.output[t]? = some v →
        (∀ imm, ops[t]? = some (.readm imm) → v = imm) ∧
        ((∀ imm, ops[t]? ≠ some (.readm imm)) → v = 0)) ∧
      ∀ source, assemble source = .ok s.program →
        ∀ v ∈ s.machine.output, 0 ≤ v.toInt ∧ v.toInt ≤ 4095 := by
  refine ⟨fun rs hrs => Traced.start.performAll fun r hr => Or.inr (hrs r hr), ?_⟩
  intro ops s h hlen
  have hrecords := h.logged.2 hlen
  refine ⟨hrecords.eq_empty, fun t => hrecords.size_eq, ?_, ?_⟩
  · intro t v hv
    rcases hrecords.getElem?_cases hv with hop | ⟨hop, rfl⟩
    · refine ⟨fun imm himm => ?_, fun hnone => absurd hop (hnone v)⟩
      exact Operation.readm.inj (Option.some.inj (hop.symm.trans himm))
    · exact ⟨fun imm himm => absurd himm (hop imm), fun _ => rfl⟩
  · intro source hsource v hv
    obtain ⟨t, ht⟩ := Array.getElem?_of_mem hv
    rcases hrecords.getElem?_cases ht with hop | ⟨-, rfl⟩
    · obtain ⟨i, hi, ho⟩ := h.mem_program _ (List.mem_of_getElem? hop)
      exact (assembled_of_assemble hsource i hi).readm_range ho
    · decide

/-- A fault between two `readm` takes no place in the log. -/
theorem output_records_readm_faulting :
    ∃ source p ops s, assemble source = .ok p ∧ Traced (fun _ => none) p ops s ∧
      ops = [.mov4 0 1, .mov1 1 0, .subt 2 3 1, .readm 9, .readm 0, .halt] ∧
      s.machine.output.size = 5 ∧ ∀ v ∈ s.machine.output, 0 ≤ v.toInt ∧ v.toInt ≤ 4095 := by
  let source := Text.utf8
    "mov4 R0 1\nmov1 R1 0\nsubt R2 R3 R1\nreadm 9\nload R3 R2\nreadm 0\nhalt"
  let p : Program := #[⟨.mov4, [0, 1], .mov4 0 1, 0x3001, Text.utf8 "3001"⟩,
    ⟨.mov1, [1, 0], .mov1 1 0, 0x0100, Text.utf8 "0100"⟩,
    ⟨.subt, [2, 3, 1], .subt 2 3 1, 0x5231, Text.utf8 "5231"⟩,
    ⟨.readm, [9], .readm 9, 0x7009, Text.utf8 "7009"⟩,
    ⟨.load, [3, 2], .load 3 2, 0xA320, Text.utf8 "A320"⟩,
    ⟨.readm, [0], .readm 0, 0x7000, Text.utf8 "7000"⟩,
    ⟨.halt, [], .halt, 0xF000, Text.utf8 "F000"⟩]
  have hp : assemble source = .ok p := by decide +kernel
  -- the `load` follows a register that holds -1
  have hops : (start p).history 7 =
      [.mov4 0 1, .mov1 1 0, .subt 2 3 1, .readm 9, .readm 0, .halt] := by decide +kernel
  have hs := (Traced.start : Traced (fun _ => none) p [] (start p)).after 7
  rw [hops, List.nil_append] at hs
  obtain ⟨-, hsize, -, hrange⟩ := (output_records_readm (fun _ => none) p).2 _ _ hs (by decide)
  refine ⟨source, p, _, _, hp, hs, rfl, hsize 4 ⟨⟨0, rfl⟩, ?_⟩, hrange source ?_⟩
  · rintro t ⟨imm, ht⟩
    have hlt := (List.getElem?_eq_some_iff.1 ht).1
    have hne : t ≠ 5 := by
      rintro rfl
      simp at ht
    simp only [List.length_cons, List.length_nil] at hlt
    omega
  · rw [after_program]
    exact hp

end Session

end NibbleMachine
