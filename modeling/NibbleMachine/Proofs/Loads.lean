import NibbleMachine.Proofs.History

/-!
Loading is all or nothing. A load that fails leaves the session as it was and prints nothing, so a
row of requests comes to the same without it. A load that succeeds starts over, so nothing that
happened before can be told from what comes after: it is what a new session makes of the same
source, be it from a text or from a file.
-/

namespace NibbleMachine.Session

/-! ### Rows of requests -/

/-- The session that a row of requests leaves. -/
def afterAll (files : Files) : List Request → Session → Session
  | [], s => s
  | r :: rs, s => (s.perform files r).session.afterAll files rs

theorem performAll_append (files : Files) : ∀ (before rs : List Request) (s : Session),
    s.performAll files (before ++ rs) =
      s.performAll files before ++ (s.afterAll files before).performAll files rs
  | [], _, _ => rfl
  | r :: before, rs, s => by
    have ih := performAll_append files before rs (s.perform files r).session
    rw [List.cons_append, performAll, ih, performAll, afterAll, List.cons_append]

/-- Each request of a row with what it comes to. -/
def attempts (files : Files) (rs : List Request) (s : Session) : List (Request × Outcome Answer) :=
  rs.zip (s.performAll files rs)

/-- A load that has failed. -/
def refused (attempt : Request × Outcome Answer) : Bool :=
  attempt.1.loads && !attempt.2.result.isOk

/-- A row of requests without the loads that fail, each with what it comes to in the row. -/
def kept (files : Files) (rs : List Request) (s : Session) : List (Request × Outcome Answer) :=
  (s.attempts files rs).filter fun attempt => !refused attempt

/-! ### Loads that fail -/

variable {files : Files} {s : Session} {r : Request}

theorem session_of_refused (h : refused (r, s.perform files r) = true) :
    (s.perform files r).session = s := by
  obtain ⟨hr, hfailed⟩ := Bool.and_eq_true_iff.1 h
  cases hresult : (s.perform files r).result with
  | ok a => simp [hresult, Except.isOk, Except.toBool] at hfailed
  | error e => rw [perform_loads_of_error hr hresult]

/-- A row of requests and the row without the loads that fail go through the same sessions. -/
theorem performAll_kept (files : Files) : ∀ (rs : List Request) (s : Session),
    s.performAll files ((s.kept files rs).map (·.1)) = (s.kept files rs).map (·.2) ∧
      s.afterAll files ((s.kept files rs).map (·.1)) = s.afterAll files rs
  | [], _ => ⟨rfl, rfl⟩
  | r :: rs, s => by
    have ih := performAll_kept files rs (s.perform files r).session
    have hkept : s.kept files (r :: rs) = if refused (r, s.perform files r) = true
        then (s.perform files r).session.kept files rs
        else (r, s.perform files r) :: (s.perform files r).session.kept files rs := by
      rw [kept, attempts, performAll, List.zip_cons_cons, List.filter_cons]
      cases refused (r, s.perform files r) <;> rfl
    rw [hkept]
    by_cases hrefused : refused (r, s.perform files r) = true
    · rw [if_pos hrefused, afterAll]
      rw [session_of_refused hrefused] at ih ⊢
      exact ih
    · rw [if_neg hrefused, List.map_cons, List.map_cons, performAll, afterAll, afterAll, ih.1, ih.2]
      exact ⟨rfl, rfl⟩

/-! ### Loads that succeed -/

/-- The source text that a load reads, if there is one. -/
def Request.source? (files : Files) : Request → Option Text
  | .loadSource source => some source
  | .loadFile path => files (Text.untilNul path)
  | _ => none

/-- A file is loaded as its text is. -/
theorem perform_of_source? {source : Text} (h : r.source? files = some source) (s : Session) :
    s.perform files r = s.perform files (.loadSource source) := by
  cases r with
  | loadSource text => rw [Option.some.inj h]
  | loadFile path =>
    have hfile : files (Text.untilNul path) = some source := h
    rw [perform, perform, loadFile, loadSource, assembleFile, hfile]
    cases hp : assemble source <;> simp only [hp]
  | _ => contradiction

/-- A load that succeeds leaves the start of its program, whatever the session it was asked of. -/
theorem perform_loadSource_of_ok {source : Text} {a : Answer}
    (h : (s.perform files (.loadSource source)).result = .ok a) :
    ∃ p, assemble source = .ok p ∧ ∀ t : Session, t.perform files (.loadSource source) =
      { session := start p, result := .ok .nothing } := by
  cases hp : assemble source with
  | error r => simp [perform, loadSource, hp, load, quiet] at h
  | ok p => exact ⟨p, rfl, fun t => by simp [perform, loadSource, hp, load, quiet]⟩

/-- Loads are all or nothing, and they erase what was before. A load that fails leaves the session
    as it was and prints nothing, so it can be left out of any row of requests. A load that succeeds
    leaves the start of its program; it and all that follows come to what they come to in a new
    session, where the source may also be loaded the other way, as a text or from a file. -/
theorem loads_all_or_nothing (files : Files) :
    (∀ (s : Session) (r : Request) (e : Failure), r.loads = true →
      (s.perform files r).result = .error e →
      s.perform files r = { session := s, result := .error e, stdout := [], stderr := [] }) ∧
    (∀ (s : Session) (rs : List Request),
      s.performAll files ((s.kept files rs).map (·.1)) = (s.kept files rs).map (·.2) ∧
      s.afterAll files ((s.kept files rs).map (·.1)) = s.afterAll files rs) ∧
    ∀ (s : Session) (before rs : List Request) (r r' : Request) (source : Text) (a : Answer),
      r.source? files = some source → r'.source? files = some source →
      ((s.afterAll files before).perform files r).result = .ok a →
      (∃ p, assemble source = .ok p ∧ (s.afterAll files before).perform files r =
        { session := start p, result := .ok .nothing, stdout := [], stderr := [] }) ∧
      s.performAll files (before ++ r :: rs) =
        s.performAll files before ++ ({} : Session).performAll files (r' :: rs) := by
  refine ⟨fun s r e => perform_loads_of_error, fun s rs => performAll_kept files rs s, ?_⟩
  intro s before rs r r' source a hr hr' ha
  rw [perform_of_source? hr] at ha ⊢
  obtain ⟨p, hp, hload⟩ := perform_loadSource_of_ok ha
  refine ⟨⟨p, hp, hload _⟩, ?_⟩
  rw [performAll_append, performAll, performAll, perform_of_source? hr, perform_of_source? hr',
    hload, hload]

/-- A file is loaded after a run, a load that fails and a write to a register. -/
theorem loads_all_or_nothing_reloading :
    ∃ (files : Files) (first bad file text : Request) (e : Failure), bad.loads = true ∧
      (({} : Session).perform files bad).result = .error e ∧
      (({} : Session).perform files bad).session = {} ∧
      ({} : Session).performAll files [first, .run 9, .machine (.setRegister 3 9)] =
        (({} : Session).kept files [first, .run 9, bad, .machine (.setRegister 3 9)]).map (·.2) ∧
      file ≠ text ∧
      ∀ rs, ({} : Session).performAll files
          ([first, .run 9, bad, .machine (.setRegister 3 9)] ++ file :: rs) =
        ({} : Session).performAll files [first, .run 9, bad, .machine (.setRegister 3 9)]
          ++ ({} : Session).performAll files (text :: rs) := by
  let source := Text.utf8 "readm 7\nhalt"
  let files : Files := fun path => if path = Text.utf8 "a.asm" then some source else none
  let first : Request := .loadSource (Text.utf8 "mov4 R1 5\nmov1 R1 1\nhalt")
  let bad : Request := .loadSource (Text.utf8 "mov1 R16 0")
  let file : Request := .loadFile (Text.utf8 "a.asm")
  have hbad : (({} : Session).perform files bad).result =
      .error (.rejected { cause := .wideRegister .mov1 16, line := some 1 }) := by decide +kernel
  have hkept : (({} : Session).kept files
      [first, .run 9, bad, .machine (.setRegister 3 9)]).map (·.1) =
        [first, .run 9, .machine (.setRegister 3 9)] := by decide +kernel
  have hfile : ((({} : Session).afterAll files
      [first, .run 9, bad, .machine (.setRegister 3 9)]).perform files file).result =
        .ok .nothing := by decide +kernel
  obtain ⟨hrefused, hrow, hload⟩ := loads_all_or_nothing files
  have hsame := (hrow {} [first, .run 9, bad, .machine (.setRegister 3 9)]).1
  rw [hkept] at hsame
  refine ⟨files, first, bad, file, .loadSource source, _, rfl, hbad, ?_, hsame, by simp [file], ?_⟩
  · rw [hrefused {} bad _ rfl hbad]
  · intro rs
    exact (hload {} _ rs file (.loadSource source) source .nothing rfl rfl hfile).2

end NibbleMachine.Session
