import NibbleMachine.Proofs.OutputLog

/-!
What is true of every session that loads, steps, runs and dialogues lead to from a fresh one.

The step count and the clock are kept in two places and moved on together. The program counter is
moved on before an instruction is carried out, so it is never further than one behind the program,
unless a jump has taken it elsewhere, and jumps have targets up to 255 only. A `halt` leaves the
program counter right behind itself, and nothing is carried out after it.
-/

namespace NibbleMachine

/-- An assembled jump leads no further than 255. -/
theorem Instruction.Assembled.target_le {i : Instruction} (h : i.Assembled) {rn target : Nat}
    (ho : i.operation = .jz rn target) : target ≤ 255 := by
  have hname : i.op = .jz := by rw [h.op_eq, ho, Operation.opcode]
  obtain ⟨-, hop⟩ := Operation.ofArgs_eq_ok_iff.1 h.operation
  have hfits := h.fits
  rw [hname] at hop hfits
  obtain rfl : (i.args.getD 1 0).toNat = target := (Operation.jz.inj (hop.trans ho)).2
  have hlt : (i.args.getD 1 0).toNat < 2 ^ 8 := hfits.immediate_lt rfl
  omega

namespace Session

/-- The invariant of sessions with an assembled program and their histories. -/
structure Sound (ops : List Operation) (s : Session) : Prop where
  assembled : s.program.Assembled
  time_eq : s.machine.time = s.steps
  pc_le : s.machine.pc ≤ max s.program.size 255
  halted_iff : s.halted = true ↔ .halt ∈ ops
  /-- the instruction before the program counter has stopped the session -/
  halt_behind : s.halted = true →
    ∃ k i, s.machine.pc = k + 1 ∧ s.program[k]? = some i ∧ i.operation = .halt

theorem sound_start {p : Program} (hp : p.Assembled) : Sound [] (start p) where
  assembled := hp
  time_eq := rfl
  pc_le := Nat.zero_le _
  halted_iff := by simp [start]
  halt_behind := by simp [start]

theorem Sound.carry {ops : List Operation} {s : Session} {i : Instruction} (h : Sound ops s)
    (hi : s.next? = some i) : Sound (ops ++ [i.operation]) (s.carry i.operation) := by
  obtain ⟨hhalted, hfetch⟩ := next?_eq_some_iff.1 hi
  have hlt : s.machine.pc < s.program.size := (Array.getElem?_eq_some_iff.1 hfetch).1
  have hassembled : i.Assembled := h.assembled i (mem_program_of_next? hi)
  have hops : .halt ∉ ops := fun hmem => by simp [h.halted_iff.2 hmem] at hhalted
  -- nothing was halted before, so this operation decides
  have hsignal : (s.carry i.operation).halted = true ↔ i.operation = .halt := by
    rw [Session.carry, hhalted]
    cases i.operation <;> simp [Operation.signal]
  refine ⟨h.assembled, ?_, ?_, ?_, ?_⟩
  · rw [carry_time, h.time_eq]
    rfl
  · rcases carry_pc i.operation s with hpc | ⟨rn, target, ho, hpc⟩
    · rw [hpc]
      exact Nat.le_trans hlt (Nat.le_max_left _ _)
    · rw [hpc]
      exact Nat.le_trans (hassembled.target_le ho) (Nat.le_max_right _ _)
  · rw [hsignal, List.mem_append, List.mem_singleton, eq_comm]
    simp [hops]
  · intro hnow
    have ho := hsignal.1 hnow
    refine ⟨s.machine.pc, i, ?_, hfetch, ho⟩
    rw [ho]
    rfl

theorem Sound.pass {ops : List Operation} {s : Session} {i : Instruction} (h : Sound ops s)
    (hi : s.next? = some i) : Sound ops s.pass := by
  obtain ⟨hhalted, hfetch⟩ := next?_eq_some_iff.1 hi
  have hlt : s.machine.pc < s.program.size := (Array.getElem?_eq_some_iff.1 hfetch).1
  refine ⟨h.assembled, h.time_eq, ?_, h.halted_iff, ?_⟩
  · exact Nat.le_trans hlt (Nat.le_max_left _ _)
  · intro hnow
    rw [Session.pass, hhalted] at hnow
    contradiction

theorem Traced.sound {files : Files} {p : Program} {ops : List Operation} {s : Session}
    (h : Traced files p ops s) (hp : p.Assembled) : Sound ops s :=
  h.induction_on (sound_start (h.assembled hp)) Sound.carry Sound.pass

/-- The invariant of sessions that loads, steps, runs and dialogues lead to, as long as fewer than
    2^64 operations were carried out since the last load: clock and step count agree, the log is no
    longer than the time, the program counter is bounded, and halted sessions are those that have
    carried out a `halt`, right behind which they stand. -/
theorem reached_invariant (files : Files) :
    (∀ rs : List Request, (∀ r ∈ rs, r.loads = true ∨ r.drives = true) →
      ∀ o ∈ ({} : Session).performAll files rs, ∃ ops, Traced files #[] ops o.session) ∧
    ∀ (ops : List Operation) (s : Session), Traced files #[] ops s → ops.length < 2 ^ 64 →
      s.machine.time = s.steps ∧ s.steps.toNat = ops.length ∧
      s.machine.output.size ≤ s.machine.time.toNat ∧
      s.machine.pc ≤ max s.program.size 255 ∧
      (s.halted = true → 1 ≤ s.machine.pc ∧ s.machine.pc ≤ s.program.size ∧
        ∃ i, s.program[s.machine.pc - 1]? = some i ∧ i.op = .halt) ∧
      (s.halted = false → .halt ∉ ops) := by
  refine ⟨fun rs hrs => Traced.start.performAll hrs, ?_⟩
  intro ops s h hlen
  obtain ⟨htime, hlog⟩ := h.logged
  have hsound := h.sound (by simp [Program.Assembled])
  have hcount : s.machine.time.toNat = ops.length := by
    rw [htime]
    exact UInt64.toNat_ofNat_of_lt' hlen
  refine ⟨hsound.time_eq, by rw [← hsound.time_eq, hcount], ?_, hsound.pc_le, ?_, ?_⟩
  · rw [hcount]
    exact (hlog hlen).size_le
  · intro hhalted
    obtain ⟨k, i, hpc, hfetch, ho⟩ := hsound.halt_behind hhalted
    have hlt : k < s.program.size := (Array.getElem?_eq_some_iff.1 hfetch).1
    have hi : i.Assembled :=
      hsound.assembled i (Array.mem_toList_iff.2 (Array.mem_of_getElem? hfetch))
    rw [hpc]
    exact ⟨Nat.le_add_left 1 k, hlt, i, hfetch, by rw [hi.op_eq, ho, Operation.opcode]⟩
  · intro hhalted hmem
    rw [hsound.halted_iff.2 hmem] at hhalted
    contradiction

/-- A source is loaded, another one is refused, and a jump leads to a `halt`. -/
theorem reached_invariant_halted :
    ∃ ops s, Traced (fun _ => none) #[] ops s ∧ s.halted = true ∧
      ops = [.mov4 0 3, .mov1 0 0, .jz 0 3, .halt] ∧ s.steps.toNat = ops.length ∧
      1 ≤ s.machine.pc ∧ ∃ i, s.program[s.machine.pc - 1]? = some i ∧ i.op = .halt := by
  let source := Text.utf8 "mov4 R0 3\nmov1 R0 0\njz R0 3\nhalt"
  let p : Program := #[⟨.mov4, [0, 3], .mov4 0 3, 0x3003, Text.utf8 "3003"⟩,
    ⟨.mov1, [0, 0], .mov1 0 0, 0x0000, Text.utf8 "0000"⟩,
    ⟨.jz, [0, 3], .jz 0 3, 0x6003, Text.utf8 "6003"⟩,
    ⟨.halt, [], .halt, 0xF000, Text.utf8 "F000"⟩]
  have hp : assemble source = .ok p := by decide +kernel
  have hload : (start #[]).perform (fun _ => none) (.loadSource source) =
      { session := start p, result := .ok .nothing } := by
    rw [perform, loadSource, hp]
    rfl
  have hrefused : (start p).perform (fun _ => none) (.loadFile (Text.utf8 "a.asm")) =
      { session := start p, result := .error (.noFile (Text.utf8 "a.asm")) } := rfl
  have hloaded := (Traced.start : Traced (fun _ => none) #[] [] (start #[])).load
    (r := .loadSource source) rfl (by rw [hload])
  rw [hload] at hloaded
  have hkept := hloaded.refusal (r := .loadFile (Text.utf8 "a.asm")) rfl (by rw [hrefused])
  rw [hrefused] at hkept
  have hs := hkept.after 4
  have hops : [] ++ (start p).history 4 = [.mov4 0 3, .mov1 0 0, .jz 0 3, .halt] := by
    decide +kernel
  have hhalted : ((start p).after 4).halted = true := by decide +kernel
  rw [hops] at hs
  obtain ⟨-, hcount, -, -, hhalt, -⟩ := (reached_invariant (fun _ => none)).2 _ _ hs (by decide)
  obtain ⟨hpc, -, hi⟩ := hhalt hhalted
  exact ⟨_, _, hs, hhalted, rfl, hcount, hpc, hi⟩

end Session

end NibbleMachine
