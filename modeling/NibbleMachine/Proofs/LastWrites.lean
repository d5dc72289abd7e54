import Mathlib.Data.List.DropRight
import NibbleMachine.Proofs.OutputLog

/-!
The output log of a machine that anything may be asked of.

A value is put out at the time that the clock shows, and the clock moves on only when it is told to.
So several values may be put out at one time, any number of times may be passed over, and a reset may
come at any point. Of the values of one time the log keeps the last, it has zero where there was
none, and it reaches as far as the latest time at which there was one. Besides a reset, one thing
takes something away from it: a value that is put out at the last time the clock can show. The size
that the log should take is then out of range, and the log is emptied.
-/

namespace NibbleMachine.Machine

open Session (stateOf resultOf)

/-! ### Rows of requests -/

/-- The machine that a request leaves, whether it failed or not. -/
def after (r : Request) (m : Machine) : Machine := stateOf (perform r m)

/-- The machine that a row of requests leaves. -/
def afterAll : List Request → Machine → Machine
  | [], m => m
  | r :: rs, m => (m.after r).afterAll rs

theorem afterAll_snoc (r : Request) : ∀ (rs : List Request) (m : Machine),
    m.afterAll (rs ++ [r]) = (m.afterAll rs).after r
  | [], _ => rfl
  | q :: rs, m => afterAll_snoc r rs (m.after q)

theorem performAll_cons (r : Request) (rs : List Request) (m : Machine) :
    performAll (r :: rs) m = (resultOf (perform r m), m.after r)
      :: performAll rs (m.after r) := by
  rw [performAll, after]
  cases perform r m <;> rfl

/-- The machines beside the answers to a row are those that its beginnings leave. -/
theorem machine_of_performAll : ∀ {rs : List Request} {m m' : Machine} {k : Nat}
    {a : Except Failure Answer}, (performAll rs m)[k]? = some (a, m') →
    m' = m.afterAll (rs.take (k + 1))
  | [], _, _, _, _, h => by simp [performAll] at h
  | r :: rs, m, m', 0, a, h => by
    rw [performAll_cons, List.getElem?_cons_zero, Option.some.injEq, Prod.mk.injEq] at h
    exact h.2.symm
  | r :: rs, m, m', k + 1, a, h => by
    rw [performAll_cons, List.getElem?_cons_succ] at h
    rw [List.take_succ_cons, afterAll]
    exact machine_of_performAll h

/-! ### What is put out, and when -/

/-- The value that a request puts out, if it puts one out. -/
def Request.output? : Request → Option Value
  | .record v => some v
  | .exec op args =>
    match Operation.ofArgs op args with
    | .ok o => o.output?
    | .error _ => none
  | .execLine line =>
    match readLine line with
    | .ok (some i) => i.operation.output?
    | _ => none
  | _ => none

/-- The units of time that a request lets pass. -/
def Request.duration : Request → UInt64
  | .tick n => n
  | _ => 0

/-- Whether a request makes the machine a fresh one. -/
def Request.resets : Request → Bool
  | .reset => true
  | _ => false

/-- The units of time that a row of requests lets pass. -/
def elapsed : List Request → Nat
  | [] => 0
  | r :: rs => r.duration.toNat + elapsed rs

/-- The requests of a row behind its last reset, or all of them. -/
def sinceReset (rs : List Request) : List Request := rs.rtakeWhile fun r => !r.resets

/-- The values that a row of requests puts out, in order and each with its time, from the time `now`
    on. -/
def recordsFrom (now : Nat) : List Request → List (Nat × Value)
  | [] => []
  | r :: rs => (r.output?.map fun v => (now, v)).toList ++ recordsFrom (now + r.duration.toNat) rs

/-- The values that a row of requests has put out since its last reset, in order and each with its
    time. -/
def records (rs : List Request) : List (Nat × Value) := recordsFrom 0 (sinceReset rs)

theorem elapsed_snoc (r : Request) : ∀ rs : List Request,
    elapsed (rs ++ [r]) = elapsed rs + r.duration.toNat
  | [] => by simp [elapsed]
  | q :: rs => by rw [List.cons_append, elapsed, elapsed_snoc r rs, elapsed, Nat.add_assoc]

theorem recordsFrom_snoc (r : Request) : ∀ (rs : List Request) (now : Nat),
    recordsFrom now (rs ++ [r]) =
      recordsFrom now rs ++ (r.output?.map fun v => (now + elapsed rs, v)).toList
  | [], now => by simp [recordsFrom, elapsed]
  | q :: rs, now => by
    rw [List.cons_append, recordsFrom, recordsFrom_snoc r rs, recordsFrom, elapsed, Nat.add_assoc,
      List.append_assoc]

/-- Nothing is put out later than when the time of the row is over. -/
theorem le_of_mem_recordsFrom : ∀ {rs : List Request} {now t : Nat},
    t ∈ (recordsFrom now rs).map Prod.fst → t ≤ now + elapsed rs
  | [], _, _, h => by simp [recordsFrom] at h
  | r :: rs, now, t, h => by
    rw [recordsFrom, List.map_append, List.mem_append] at h
    rw [elapsed]
    rcases h with h | h
    · have ht : t = now := by
        cases hout : r.output? <;> simp_all
      omega
    · have hle := le_of_mem_recordsFrom h
      omega

theorem sinceReset_snoc (rs : List Request) {r : Request} (hr : r ≠ .reset) :
    sinceReset (rs ++ [r]) = sinceReset rs ++ [r] := by
  refine List.rtakeWhile_concat_pos _ _ _ ?_
  cases r with
  | reset => contradiction
  | _ => rfl

theorem sinceReset_reset (rs : List Request) : sinceReset (rs ++ [.reset]) = [] :=
  List.rtakeWhile_concat_neg _ _ _ (by simp [Request.resets])

/-! ### One request -/

theorem stateOf_map_attempt {α β : Type} (f : α → β) (a : Action α) (m : Machine) :
    stateOf ((f <$> attempt a) m) = stateOf (a m) := by
  simp only [Functor.map, EStateM.map, attempt, EStateM.adaptExcept]
  cases a m <;> rfl

theorem stateOf_attempt_bind {α β : Type} (y : β) (a : Action α) (m : Machine) :
    stateOf ((attempt a >>= fun _ => pure y) m) = stateOf (a m) := by
  simp only [bind, EStateM.bind, attempt, EStateM.adaptExcept]
  cases a m <;> rfl

/-- Whether it fails or not, an operation leaves the clock alone, and the log unless it puts a value
    out. -/
theorem stateOf_exec (o : Operation) (m : Machine) :
    (stateOf (o.exec m)).time = m.time ∧
      (stateOf (o.exec m)).output = (o.output?.elim m fun v => m.record v).output := by
  by_cases hallowed : o.Allowed m
  · rw [(o.exec_guarded m).1 hallowed, stateOf]
    refine ⟨o.effect_time m, ?_⟩
    cases hout : o.output? with
    | none => exact Operation.effect_output_of_none hout m
    | some v =>
      obtain rfl := Operation.output?_eq_some_iff.1 hout
      rfl
  · obtain ⟨fault, hfault⟩ := (o.exec_guarded m).2 hallowed
    -- a `readm` cannot fail, so nothing would have been put out
    have hout : o.output? = none := by
      cases o with
      | readm imm => simp [Operation.Allowed, Operation.InBounds, Operation.pointer?] at hallowed
      | _ => rfl
    rw [hfault, hout]
    exact ⟨rfl, rfl⟩

/-- A request other than a reset moves the clock on by its duration, and the log is as before unless
    the request puts a value out. -/
theorem after_of_ne_reset {r : Request} (hr : r ≠ .reset) (m : Machine) :
    (m.after r).time = m.time + r.duration ∧
      (m.after r).output = (r.output?.elim m fun v => m.record v).output := by
  have hzero : m.time = m.time + 0 := (UInt64.add_zero m.time).symm
  rw [after]
  cases r with
  | register i =>
    rw [perform, stateOf_map_attempt, register]
    split <;> exact ⟨hzero, rfl⟩
  | setRegister i v =>
    rw [perform, stateOf_attempt_bind, setRegister]
    split <;> exact ⟨hzero, rfl⟩
  | cell addr =>
    rw [perform, stateOf_map_attempt, cell]
    split <;> exact ⟨hzero, rfl⟩
  | setCell addr v =>
    rw [perform, stateOf_attempt_bind, setCell]
    split <;> exact ⟨hzero, rfl⟩
  | record v => exact ⟨hzero, rfl⟩
  | setPc pc => exact ⟨hzero, rfl⟩
  | tick n => exact ⟨rfl, rfl⟩
  | reset => contradiction
  | exec op args =>
    rw [perform, Request.output?]
    cases Operation.ofArgs op args with
    | error c => exact ⟨hzero, rfl⟩
    | ok o =>
      obtain ⟨htime, hout⟩ := stateOf_exec o m
      simp only [stateOf_map_attempt]
      exact ⟨htime.trans hzero, hout⟩
  | execLine line =>
    rw [perform, Request.output?]
    cases readLine line with
    | error c => exact ⟨hzero, rfl⟩
    | ok instruction =>
      cases instruction with
      | none => exact ⟨hzero, rfl⟩
      | some i =>
        obtain ⟨htime, hout⟩ := stateOf_exec i.operation m
        simp only [stateOf_map_attempt]
        exact ⟨htime.trans hzero, hout⟩

theorem getElem?_eq_some_getD {log : Array Value} {t : Nat} (ht : t < log.size) :
    log[t]? = some (log[t]?.getD 0) := by
  rw [Array.getElem?_eq_getElem ht, Option.getD_some]

/-- Before the last time there is, a request other than a reset never shortens the log, and changes
    no entry but that of the current time. -/
theorem output_after {r : Request} (hr : r ≠ .reset) {m : Machine}
    (hm : r.output? = none ∨ m.time.toNat + 1 < 2 ^ 64) :
    m.output.size ≤ (m.after r).output.size ∧
      ∀ t < m.output.size, t ≠ m.time.toNat → (m.after r).output[t]? = m.output[t]? := by
  rw [(after_of_ne_reset hr m).2]
  cases hout : r.output? with
  | none => exact ⟨Nat.le_refl _, fun _ _ _ => rfl⟩
  | some v =>
    have hlt : m.time.toNat + 1 < 2 ^ 64 := hm.resolve_left (by simp [hout])
    have hsize : m.output.size ≤ (m.record v).output.size := by
      rw [m.size_record v hlt]
      exact Nat.le_max_left _ _
    refine ⟨hsize, fun t ht hnow => ?_⟩
    rw [Option.elim_some, getElem?_eq_some_getD (Nat.lt_of_lt_of_le ht hsize),
      getElem?_eq_some_getD ht, m.getD_record v hlt, if_neg hnow]

/-- At the last time there is, a value that is put out empties the log. -/
theorem output_after_of_last {r : Request} (hr : r ≠ .reset) {v : Value} (hv : r.output? = some v)
    {m : Machine} (hm : m.time.toNat + 1 = 2 ^ 64) (hsize : m.output.size < 2 ^ 64) :
    (m.after r).output = #[] := by
  rw [(after_of_ne_reset hr m).2, hv]
  exact m.output_record_of_last v hm (by omega)

/-! ### Logs -/

/-- `Keeps entries log`: the log has what was put out last at each time. -/
structure Keeps (entries : List (Nat × Value)) (log : Array Value) : Prop where
  /-- it reaches every time at which something was put out -/
  covers : ∀ {t : Nat}, t ∈ entries.map Prod.fst → t < log.size
  /-- it ends at such a time -/
  ends : ∀ {t : Nat}, log.size = t + 1 → t ∈ entries.map Prod.fst
  /-- a value that no other of its time follows is there -/
  last : ∀ {before behind : List (Nat × Value)} {t : Nat} {v : Value},
    entries = before ++ (t, v) :: behind → t ∉ behind.map Prod.fst → log[t]?.getD 0 = v
  /-- it has zero where there was nothing -/
  gap : ∀ {t : Nat}, t ∉ entries.map Prod.fst → log[t]?.getD 0 = 0

namespace Keeps

variable {entries : List (Nat × Value)} {log : Array Value}

theorem nil : Keeps [] #[] := by
  constructor <;> simp

/-- A value more, put out at whatever time the clock shows before the last. -/
theorem record {m : Machine} (h : Keeps entries m.output) (hm : m.time.toNat + 1 < 2 ^ 64)
    (v : Value) : Keeps (entries ++ [(m.time.toNat, v)]) (m.record v).output := by
  have hmem : ∀ {t : Nat}, t ∈ (entries ++ [(m.time.toNat, v)]).map Prod.fst ↔
      t ∈ entries.map Prod.fst ∨ t = m.time.toNat := by simp
  refine ⟨?_, ?_, ?_, ?_⟩
  · intro t ht
    rw [m.size_record v hm]
    rcases hmem.1 ht with ht | rfl
    · exact Nat.lt_of_lt_of_le (h.covers ht) (Nat.le_max_left _ _)
    · exact Nat.le_max_right _ _
  · intro t ht
    rw [m.size_record v hm] at ht
    rw [hmem]
    by_cases hnow : t = m.time.toNat
    · exact Or.inr hnow
    · exact Or.inl (h.ends (by omega))
  · intro before behind t w hentries hlast
    rw [m.getD_record v hm]
    -- the value in question is the new one, or the new one stands behind it and has another time
    rcases List.eq_nil_or_concat behind with rfl | ⟨behind, new, rfl⟩
    · obtain ⟨-, hnew⟩ := List.append_inj' hentries rfl
      obtain ⟨rfl, rfl⟩ := Prod.mk.inj (List.cons.inj hnew).1
      rw [if_pos rfl]
    · rw [List.concat_eq_append, ← List.cons_append, ← List.append_assoc] at hentries
      obtain ⟨hold, hnew⟩ := List.append_inj' hentries rfl
      obtain rfl := (List.cons.inj hnew).1
      rw [List.concat_eq_append, List.map_append, List.mem_append, not_or] at hlast
      have hnow : t ≠ m.time.toNat := by simpa using hlast.2
      rw [if_neg hnow]
      exact h.last hold hlast.1
  · intro t ht
    rw [hmem, not_or] at ht
    rw [m.getD_record v hm, if_neg ht.2]
    exact h.gap ht.1

theorem size_eq_zero (h : Keeps [] log) : log.size = 0 := by
  cases hsize : log.size with
  | zero => rfl
  | succ t => simpa using h.ends hsize

/-- The log ends at the latest time. -/
theorem exists_isGreatest (h : Keeps entries log) (hne : entries ≠ []) :
    ∃ t, IsGreatest {t | t ∈ entries.map Prod.fst} t ∧ log.size = t + 1 := by
  obtain ⟨entry, hentry⟩ := List.exists_mem_of_ne_nil entries hne
  have hpos := h.covers (List.mem_map_of_mem hentry)
  have hsize : log.size = log.size - 1 + 1 := by omega
  refine ⟨log.size - 1, ⟨h.ends hsize, fun t ht => ?_⟩, hsize⟩
  exact Nat.le_sub_one_of_lt (h.covers ht)

theorem getElem?_last (h : Keeps entries log) {before behind : List (Nat × Value)} {t : Nat}
    {v : Value} (hentries : entries = before ++ (t, v) :: behind)
    (hlast : t ∉ behind.map Prod.fst) : log[t]? = some v := by
  have ht : t < log.size := h.covers (by simp [hentries])
  rw [getElem?_eq_some_getD ht, h.last hentries hlast]

theorem getElem?_gap (h : Keeps entries log) {t : Nat} (ht : t < log.size)
    (hgap : t ∉ entries.map Prod.fst) : log[t]? = some 0 := by
  rw [getElem?_eq_some_getD ht, h.gap hgap]

end Keeps

/-! ### Many requests -/

/-- `Stands entries log`: the log keeps the last values, unless one of them was put out at the last
    time there is; then it is empty. -/
def Stands (entries : List (Nat × Value)) (log : Array Value) : Prop :=
  (2 ^ 64 - 1 ∉ entries.map Prod.fst → Keeps entries log) ∧
    (2 ^ 64 - 1 ∈ entries.map Prod.fst → log = #[])

theorem stands_nil : Stands [] #[] := ⟨fun _ => Keeps.nil, fun _ => rfl⟩

/-- A value more, put out at whatever time the clock shows. -/
theorem Stands.record {entries : List (Nat × Value)} {m : Machine} (h : Stands entries m.output)
    (hle : ∀ t ∈ entries.map Prod.fst, t ≤ m.time.toNat) (v : Value) :
    Stands (entries ++ [(m.time.toNat, v)]) (m.record v).output := by
  have htime := m.time.toNat_lt
  by_cases hnow : m.time.toNat = 2 ^ 64 - 1
  · -- the log does not reach the last time, be it that it was emptied before
    have hsize : m.output.size ≤ m.time.toNat := by
      by_cases hlast : 2 ^ 64 - 1 ∈ entries.map Prod.fst
      · rw [h.2 hlast]
        exact Nat.zero_le _
      · cases hsize : m.output.size with
        | zero => exact Nat.zero_le _
        | succ t =>
          have ht := (h.1 hlast).ends hsize
          have hne : t ≠ 2 ^ 64 - 1 := fun heq => hlast (heq ▸ ht)
          have hle' := hle t ht
          omega
    refine ⟨fun hnot => absurd ?_ hnot, fun _ => m.output_record_of_last v (by omega) hsize⟩
    simp [hnow]
  · have hlast : 2 ^ 64 - 1 ∉ entries.map Prod.fst := by
      intro hmem
      have hle' := hle _ hmem
      omega
    refine ⟨fun _ => (h.1 hlast).record (by omega) v, fun hmem => ?_⟩
    rw [List.map_append, List.mem_append] at hmem
    rcases hmem with hmem | hmem
    · exact absurd hmem hlast
    · exact absurd (List.mem_singleton.1 hmem).symm hnow

/-- After any requests the clock shows the time since the last reset, and so the log stands by what
    was put out since then. -/
theorem stands_afterAll (rs : List Request) (hrs : elapsed (sinceReset rs) < 2 ^ 64) :
    (({} : Machine).afterAll rs).time.toNat = elapsed (sinceReset rs) ∧
      Stands (records rs) (({} : Machine).afterAll rs).output := by
  induction rs using List.reverseRecOn with
  | nil => exact ⟨rfl, stands_nil⟩
  | append_singleton rs r ih =>
    rw [afterAll_snoc, records]
    by_cases hr : r = .reset
    · subst hr
      rw [sinceReset_reset]
      exact ⟨rfl, stands_nil⟩
    · rw [sinceReset_snoc rs hr, elapsed_snoc] at hrs ⊢
      obtain ⟨htime, hlog⟩ := ih (by omega)
      obtain ⟨htime', hlog'⟩ := after_of_ne_reset hr (({} : Machine).afterAll rs)
      constructor
      · rw [htime', UInt64.toNat_add, htime, Nat.mod_eq_of_lt hrs]
      · have hle : ∀ t ∈ (records rs).map Prod.fst, t ≤ elapsed (sinceReset rs) := by
          intro t ht
          simpa using le_of_mem_recordsFrom ht
        rw [recordsFrom_snoc, Nat.zero_add, hlog', ← htime]
        rw [← htime] at hle
        cases r.output? with
        | none =>
          rw [Option.map_none, Option.toList_none, List.append_nil]
          exact hlog
        | some v => exact hlog.record hle v

/-- The log keeps the last of the values that are put out at one time, as long as fewer than 2^64
    units of time have passed since the last reset and nothing was put out at the last time there
    is, which would have emptied it. No request but a reset shortens the log or changes an entry of
    another time than the current one, unless it puts a value out at that time. -/
theorem log_keeps_last_writes (rs : List Request) (m : Machine) (r : Request) :
    (∀ (k : Nat) (a : Except Failure Answer) (m' : Machine),
      (performAll rs {})[k]? = some (a, m') → m' = ({} : Machine).afterAll (rs.take (k + 1))) ∧
    (elapsed (sinceReset rs) < 2 ^ 64 →
      (({} : Machine).afterAll rs).time.toNat = elapsed (sinceReset rs) ∧
      (2 ^ 64 - 1 ∈ (records rs).map Prod.fst → (({} : Machine).afterAll rs).output = #[]) ∧
      (2 ^ 64 - 1 ∉ (records rs).map Prod.fst →
        (records rs = [] → (({} : Machine).afterAll rs).output.size = 0) ∧
        (records rs ≠ [] → ∃ t, IsGreatest {t | t ∈ (records rs).map Prod.fst} t ∧
          (({} : Machine).afterAll rs).output.size = t + 1) ∧
        (∀ (before behind : List (Nat × Value)) (t : Nat) (v : Value),
          records rs = before ++ (t, v) :: behind → t ∉ behind.map Prod.fst →
          (({} : Machine).afterAll rs).output[t]? = some v) ∧
        ∀ t < (({} : Machine).afterAll rs).output.size, t ∉ (records rs).map Prod.fst →
          (({} : Machine).afterAll rs).output[t]? = some 0)) ∧
    (r ≠ .reset →
      (r.output? = none ∨ m.time.toNat + 1 < 2 ^ 64 →
        m.output.size ≤ (m.after r).output.size ∧
        ∀ t < m.output.size, t ≠ m.time.toNat → (m.after r).output[t]? = m.output[t]?) ∧
      ∀ v, r.output? = some v → m.time.toNat + 1 = 2 ^ 64 → m.output.size < 2 ^ 64 →
        (m.after r).output = #[]) := by
  refine ⟨fun k a m' => machine_of_performAll, fun hrs => ?_,
    fun hr => ⟨output_after hr, fun v hv => output_after_of_last hr hv⟩⟩
  obtain ⟨htime, hkeeps, hempty⟩ := stands_afterAll rs hrs
  refine ⟨htime, hempty, fun hlast => ?_⟩
  have hlog := hkeeps hlast
  refine ⟨fun hnil => ?_, hlog.exists_isGreatest, ?_, ?_⟩
  · rw [hnil] at hlog
    exact hlog.size_eq_zero
  · intro before behind t v hentries hbehind
    exact hlog.getElem?_last hentries hbehind
  · intro t ht hgap
    exact hlog.getElem?_gap ht hgap

/-- A value is put out, and another one when the clock has come to the last time that it can show.
    The log should have reached that time; it has lost the first value instead. -/
theorem log_emptied_at_last_time :
    ∃ rs : List Request, rs = [.record 7, .tick 18446744073709551615, .record 33] ∧
      elapsed (sinceReset rs) < 2 ^ 64 ∧ records rs = [(0, 7), (2 ^ 64 - 1, 33)] ∧
      (({} : Machine).afterAll (rs.take 2)).output = #[7] ∧
      (({} : Machine).afterAll rs).output = #[] :=
  ⟨_, rfl, by decide +kernel, by decide +kernel, by decide +kernel, by decide +kernel⟩

/-- Two values at one time, a request that fails between them, times that are passed over, and a
    reset before all of this; then another value over one that is there. -/
theorem log_keeps_last_writes_overwritten :
    ∃ (rs : List Request) (m : Machine),
      rs = [.record 1, .tick 9, .reset, .tick 2, .record 5, .setRegister 16 0,
        .execLine (Text.utf8 "readm 7"), .tick 3, .exec .readm [4]] ∧
      records rs = [(2, 5), (2, 7), (5, 4)] ∧ m = ({} : Machine).afterAll rs ∧
      m.time.toNat = 5 ∧ m.output.size = 6 ∧ m.output[2]? = some 7 ∧ m.output[3]? = some 0 ∧
      (m.after (.record 8)).output[2]? = some 7 := by
  let rs : List Request := [.record 1, .tick 9, .reset, .tick 2, .record 5, .setRegister 16 0,
    .execLine (Text.utf8 "readm 7"), .tick 3, .exec .readm [4]]
  have helapsed : elapsed (sinceReset rs) = 5 := by decide +kernel
  have hrecords : records rs = [(2, 5), (2, 7), (5, 4)] := by decide +kernel
  obtain ⟨-, hlog, hframe⟩ :=
    log_keeps_last_writes rs (({} : Machine).afterAll rs) (.record 8)
  obtain ⟨htime, -, hkeeps⟩ := hlog (by rw [helapsed]; decide)
  obtain ⟨-, hgreatest, hlast, hgap⟩ := hkeeps (by rw [hrecords]; decide)
  obtain ⟨t, ⟨ht, hmax⟩, hsize⟩ := hgreatest (by simp [hrecords])
  obtain rfl : t = 5 := by
    have hle : 5 ≤ t := hmax (by simp [hrecords])
    have hmem : t ∈ (records rs).map Prod.fst := ht
    have htimes : t = 2 ∨ t = 5 := by simpa [hrecords] using hmem
    omega
  have htwo := hlast [(2, 5)] [(5, 4)] 2 7 hrecords (by decide)
  have hthree := hgap 3 (by rw [hsize]; decide) (by simp [hrecords])
  refine ⟨rs, _, rfl, hrecords, rfl, htime.trans helapsed, hsize, htwo, hthree, ?_⟩
  have hsame := ((hframe (by simp)).1 (Or.inr (by rw [htime, helapsed]; decide))).2
  rw [hsame 2 (by rw [hsize]; decide) (by rw [htime, helapsed]; decide), htwo]

end NibbleMachine.Machine
