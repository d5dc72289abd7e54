import Mathlib.Data.ENat.Basic
import Mathlib.Order.Bounds.Basic
import NibbleMachine.Proofs.History

/-!
A dialogue is plain stepping. Its input allows a number of steps: a line that has something shown
allows none, `q` and the end of the input allow no more, `c` allows all there can be, and any other
line allows one. The dialogue makes steps until the first of four things: it has made what the
input allows, the session is over, the limit of steps is reached, or a step has failed. It always
ends, since a line allows one step at most and every step that is made after `c` comes closer to
the limit.
-/

namespace NibbleMachine

open Text

/-! ### What the input allows -/

/-- The lines that only have something shown. -/
def isLookup (line : Text) : Bool :=
  line == utf8 "r" || line == utf8 "R" || line == utf8 "m" || line == utf8 "M"

/-- How many steps the lines of an input allow. -/
def allowance : List Text → ℕ∞
  | [] => 0
  | line :: lines =>
    if line = utf8 "q" ∨ line = utf8 "Q" then 0
    else if line = utf8 "c" ∨ line = utf8 "C" then ⊤
    else if isLookup line then allowance lines
    else allowance lines + 1

/-- The allowance by the commands that the lines are taken for. -/
theorem allowance_cons (line : Text) (lines : List Text) :
    allowance (line :: lines) = match Command.ofLine line with
      | .quit => 0
      | .carryOn => ⊤
      | .registers => allowance lines
      | .memory => allowance lines
      | .step => allowance lines + 1 := by
  have hq : utf8 "q" = [113] ∧ utf8 "Q" = [81] := by decide
  have hc : utf8 "c" = [99] ∧ utf8 "C" = [67] := by decide
  have hr : utf8 "r" = [114] ∧ utf8 "R" = [82] := by decide
  have hm : utf8 "m" = [109] ∧ utf8 "M" = [77] := by decide
  rw [allowance, Command.ofLine, isLookup, hq.1, hq.2, hc.1, hc.2, hr.1, hr.2, hm.1, hm.2]
  split_ifs <;> simp_all

theorem allowance_filter : ∀ lines : List Text,
    allowance (lines.filter fun line => !isLookup line) = allowance lines
  | [] => rfl
  | line :: lines => by
    have ih := allowance_filter lines
    cases hline : isLookup line with
    | true =>
      rw [List.filter_cons_of_neg (by simp [hline]), ih, allowance, if_neg, if_neg, if_pos hline]
      · rintro (rfl | rfl) <;> exact absurd hline (by decide)
      · rintro (rfl | rfl) <;> exact absurd hline (by decide)
    | false => rw [List.filter_cons_of_pos (by simp [hline]), allowance, allowance, ih]

/-! ### Where a dialogue ends -/

namespace Session

/-- The fault of the `k`-th call of `step`, if that call fails. -/
def faultAt (s : Session) : (k : Nat) → Option Fault
  | 0 => none
  | k + 1 =>
    match (s.after k).stepResult with
    | .ok _ => none
    | .error f => some f

/-- What keeps a dialogue from making more than `k` steps, if `allowed` are allowed. -/
def Rests (s : Session) (allowed : ℕ∞) (k : Nat) : Prop :=
  (k : ℕ∞) = allowed ∨ (s.after k).done = true ∨ stepLimit ≤ (s.after k).steps ∨ s.faultAt k ≠ none

/-- How a dialogue ends that has made `k` steps. -/
def endingAt (s : Session) (k : Nat) : Progress :=
  match s.faultAt k with
  | none => .over (s.after k)
  | some f => .broken (s.after k) f

/-- `s.Reaches allowed progress`: a dialogue that ends at the first place to rest ends in
    `progress`. -/
def Reaches (s : Session) (allowed : ℕ∞) (progress : Progress) : Prop :=
  ∃ k, IsLeast {j | s.Rests allowed j} k ∧ progress = s.endingAt k

variable {s t : Session} {allowed : ℕ∞} {progress : Progress}

theorem not_rests_zero (hallowed : allowed ≠ 0) (hdone : ¬ s.done = true)
    (hlimit : s.steps < stepLimit) : ¬ s.Rests allowed 0 := by
  rintro (h | h | h | h)
  · exact hallowed h.symm
  · exact hdone h
  · exact absurd hlimit (UInt64.not_lt.2 h)
  · exact h rfl

theorem reaches_here (h : s.Rests allowed 0) : s.Reaches allowed (.over s) :=
  ⟨0, ⟨h, fun j _ => Nat.zero_le j⟩, rfl⟩

theorem reaches_fault {f : Fault} (hallowed : allowed ≠ 0) (hdone : ¬ s.done = true)
    (hlimit : s.steps < stepLimit) (h : s.step = .error f t) :
    s.Reaches allowed (.broken t f) := by
  have hfault : s.faultAt 1 = some f := by simp [faultAt, after, stepResult_of_error h]
  have hafter : s.after 1 = t := afterStep_of_error h
  refine ⟨1, ⟨?_, ?_⟩, by rw [endingAt, hfault, hafter]⟩
  · exact Or.inr (Or.inr (Or.inr (by simp [hfault])))
  · intro j hj
    rcases j with _ | j
    · exact absurd hj (not_rests_zero hallowed hdone hlimit)
    · omega

/-- After a step that was made, the dialogue is that of the session it led to. -/
theorem reaches_step {more : Bool} (hdone : ¬ s.done = true) (hlimit : s.steps < stepLimit)
    (h : s.step = .ok more t) (ht : t.Reaches allowed progress) :
    s.Reaches (allowed + 1) progress := by
  have hafter : ∀ j, s.after (j + 1) = t.after j := by
    intro j
    rw [after_succ, afterStep_of_ok h]
  have hfault : ∀ j, s.faultAt (j + 1) = t.faultAt j := by
    intro j
    rcases j with _ | j
    · simp [faultAt, after, stepResult_of_ok h]
    · rw [faultAt, faultAt, hafter]
  have hrests : ∀ j, s.Rests (allowed + 1) (j + 1) ↔ t.Rests allowed j := by
    intro j
    have hcount : (j : ℕ∞) + 1 = allowed + 1 ↔ (j : ℕ∞) = allowed :=
      (ENat.add_left_injective_of_ne_top ENat.one_ne_top).eq_iff
    rw [Rests, Rests, hafter, hfault, Nat.cast_succ, hcount]
  obtain ⟨k, ⟨hk, hleast⟩, rfl⟩ := ht
  refine ⟨k + 1, ⟨(hrests k).2 hk, ?_⟩, by rw [endingAt, endingAt, hafter, hfault]⟩
  intro j hj
  rcases j with _ | j
  · exact absurd hj (not_rests_zero (by simp) hdone hlimit)
  · exact Nat.succ_le_succ (hleast ((hrests j).1 hj))

/-! ### The loops -/

/-- Below the limit, a step that is made counts one up. -/
theorem toNat_steps_of_step (hlimit : s.steps < stepLimit) (h : s.step = .ok true t) :
    t.steps.toNat = s.steps.toNat + 1 := by
  have hcases := step_cases s
  rw [h] at hcases
  cases hcases with
  | made _ =>
    have hlt : s.steps.toNat < 100000 := UInt64.lt_iff_toNat_lt.1 hlimit
    show (s.steps + 1).toNat = _
    rw [UInt64.toNat_add, UInt64.toNat_one]
    omega

theorem reaches_carryOn (left : Nat) (s : Session) (log : Array Event)
    (hleft : stepLimit.toNat ≤ s.steps.toNat + left) :
    s.Reaches ⊤ (s.carryOn left log).2 := by
  fun_induction carryOn left s log with
  | case1 left s log hdone => exact reaches_here (Or.inr (Or.inl hdone))
  | case2 s log hdone events t left hadvance ih =>
    have hcases := advance_cases hdone
    rw [hadvance] at hcases
    cases hcases with
    | going _ hlimit hstep =>
      have hcount := toNat_steps_of_step hlimit hstep
      exact reaches_step hdone hlimit hstep (ih (by omega))
  | case3 left s log hdone events progress hadvance hlast =>
    have hcases := advance_cases hdone
    rw [hadvance] at hcases
    cases hcases with
    | limit _ hlimit => exact reaches_here (Or.inr (Or.inr (Or.inl hlimit)))
    | broken _ hlimit hstep => exact reaches_fault (by simp) hdone hlimit hstep
    | going _ hlimit hstep =>
      -- there are no steps left only if the limit is reached
      rcases left with _ | left
      · have hlt := UInt64.lt_iff_toNat_lt.1 hlimit
        omega
      · exact absurd rfl (hlast _ left rfl)

theorem Reaches.ne_going (h : s.Reaches allowed progress) (t : Session) : progress ≠ .going t := by
  obtain ⟨k, -, rfl⟩ := h
  rw [endingAt]
  split <;> simp

/-- An answer ends the dialogue where it should, or it leads to a session whose dialogue over the
    other lines does. -/
theorem reaches_answer (hdone : ¬ s.done = true) (line : Text) (lines : List Text) :
    s.Reaches (allowance (line :: lines)) (s.answer (some line)).2 ∨
    ∃ t, (s.answer (some line)).2 = .going t ∧ ∀ progress,
      t.Reaches (allowance lines) progress → s.Reaches (allowance (line :: lines)) progress := by
  rw [answer, allowance_cons]
  cases Command.ofLine line with
  | quit => exact Or.inl (reaches_here (Or.inl rfl))
  | carryOn => exact Or.inl (reaches_carryOn _ s _ (by omega))
  | registers => exact Or.inr ⟨s, rfl, fun _ h => h⟩
  | memory => exact Or.inr ⟨s, rfl, fun _ h => h⟩
  | step =>
    simp only
    have hcases := advance_cases hdone
    generalize s.advance = made at hcases ⊢
    cases hcases with
    | limit _ hlimit => exact Or.inl (reaches_here (Or.inr (Or.inr (Or.inl hlimit))))
    | going _ hlimit hstep => exact Or.inr ⟨_, rfl, fun _ => reaches_step hdone hlimit hstep⟩
    | broken _ hlimit hstep => exact Or.inl (reaches_fault (by simp) hdone hlimit hstep)

theorem reaches_ask (lines : List Text) (s : Session) (log : Array Event) :
    s.Reaches (allowance lines) (ask lines s log).progress := by
  fun_induction ask lines s log with
  | case1 lines s log hdone => exact reaches_here (Or.inr (Or.inl hdone))
  | case2 s log hdone events progress hanswer =>
    obtain ⟨-, rfl⟩ := Prod.mk.inj hanswer
    exact reaches_here (Or.inl rfl)
  | case3 s log hdone line lines events t hanswer ih =>
    have hline := reaches_answer hdone line lines
    rw [hanswer] at hline
    rcases hline with hend | ⟨t', ht, hgoing⟩
    · exact absurd rfl (hend.ne_going t)
    · obtain rfl := Progress.going.inj ht
      exact hgoing _ ih
  | case4 s log hdone line lines events progress hlast hanswer =>
    have hline := reaches_answer hdone line lines
    rw [hanswer] at hline
    rcases hline with hend | ⟨t, ht, -⟩
    · exact hend
    · exact absurd ht (hlast t)

theorem ask_of_done (h : s.done = true) (lines : List Text) (log : Array Event) :
    ask lines s log = { log, progress := .over s, unread := lines } := by
  cases lines <;> rw [ask, if_pos h]

/-- An answer after which the dialogue does not go on is the last that is read. -/
theorem ask_of_ended (hdone : ¬ s.done = true) {line : Text}
    (h : ∀ t, (s.answer (some line)).2 ≠ .going t) (lines : List Text) (log : Array Event) :
    ask (line :: lines) s log =
      { log := log.push s.prompt ++ (s.answer (some line)).1
        progress := (s.answer (some line)).2
        unread := lines } := by
  rw [ask, if_neg hdone]
  generalize s.answer (some line) = made at h ⊢
  obtain ⟨events, progress⟩ := made
  rcases progress with t | t | ⟨t, f⟩
  · exact absurd rfl (h t)
  · rfl
  · rfl

/-! ### What is read -/

/-- A dialogue that goes on was not told to quit or to carry on. -/
theorem ofLine_of_going {line : Text} (h : (s.answer (some line)).2 = .going t) :
    Command.ofLine line ≠ .quit ∧ Command.ofLine line ≠ .carryOn := by
  rw [answer] at h
  constructor
  · intro hline
    simp [hline] at h
  · intro hline
    rw [hline] at h
    exact (reaches_carryOn _ s _ (by omega)).ne_going t h

/-- A dialogue reads its lines in order, and none behind one that tells it to quit or to carry
    on. -/
theorem unread_ask (lines : List Text) (s : Session) (log : Array Event) :
    (ask lines s log).unread <:+ lines ∧ ∀ front line back, lines = front ++ line :: back →
      Command.ofLine line = .quit ∨ Command.ofLine line = .carryOn →
      back <:+ (ask lines s log).unread := by
  -- what stands behind any line of a row stands behind the first
  have hfirst : ∀ {first line : Text} {lines front back : List Text},
      first :: lines = front ++ line :: back → back <:+ lines := by
    intro first line lines front back hlines
    rcases List.cons_eq_append_iff.1 hlines with ⟨-, hback⟩ | ⟨front', -, rfl⟩
    · exact (List.cons.inj hback).2 ▸ List.suffix_refl _
    · exact ⟨front' ++ [line], by simp⟩
  fun_induction ask lines s log with
  | case1 lines s log _ =>
    refine ⟨List.suffix_refl _, fun front line back hlines _ => ?_⟩
    exact ⟨front ++ [line], by simp [hlines]⟩
  | case2 s log _ events progress _ => exact ⟨List.suffix_refl _, by simp⟩
  | case3 s log _ first lines events t hanswer ih =>
    refine ⟨ih.1.trans (List.suffix_cons first lines), fun front line back hlines hline => ?_⟩
    rcases List.cons_eq_append_iff.1 hlines with ⟨-, hback⟩ | ⟨front', -, hrest⟩
    · obtain ⟨hquit, hcarryOn⟩ := ofLine_of_going (congrArg Prod.snd hanswer)
      rw [(List.cons.inj hback).1] at hline
      exact absurd hline (not_or.2 ⟨hquit, hcarryOn⟩)
    · exact ih.2 front' line back hrest hline
  | case4 s log _ first lines events progress _ _ =>
    exact ⟨List.suffix_cons first lines, fun front line back hlines _ => hfirst hlines⟩

/-! ### The whole dialogue -/

/-- A dialogue ends at the first place to rest. -/
theorem converse_reaches (input : Text) (s : Session) :
    s.Reaches (allowance (lines input)) (s.converse input).progress :=
  reaches_ask (lines input) s #[.opening]

theorem session_endingAt (s : Session) (k : Nat) : (s.endingAt k).session = s.after k := by
  rw [endingAt]
  split <;> rfl

theorem fault?_endingAt (s : Session) (k : Nat) : (s.endingAt k).fault? = s.faultAt k := by
  rw [endingAt]
  split <;> simp [Progress.fault?, *]

/-- What stepping through a session comes to, by the first place to rest. -/
theorem stepThrough_of_rests {input : Text} {k : Nat}
    (hk : IsLeast {j | s.Rests (allowance (lines input)) j} k) :
    (s.converse input).progress = s.endingAt k ∧ (s.stepThrough input).session = s.after k ∧
      (s.stepThrough input).result = (s.faultAt k).elim (.ok ()) fun f => .error (.fault f) := by
  obtain ⟨k', hk', hend⟩ := converse_reaches input s
  obtain rfl := hk'.unique hk
  rw [stepThrough_eq, hend, session_endingAt, fault?_endingAt]
  exact ⟨rfl, rfl, rfl⟩

/-- A dialogue is plain stepping. It always comes to an end, and leaves the session after `k` calls
    of `step`, where `k` is the first number at which the input allows no more, the session is over
    or at the limit of steps, or the last call has failed. Lines that have something shown make no
    difference, and no line behind a `c` or a `q` is read. -/
theorem stepThrough_is_stepping (input : Text) (s : Session) :
    ∃ k, IsLeast {j | s.Rests (allowance (lines input)) j} k ∧
      (s.converse input).progress = s.endingAt k ∧
      (s.stepThrough input).session = s.after k ∧
      (s.stepThrough input).result = (match s.faultAt k with
        | none => .ok ()
        | some f => .error (.fault f)) ∧
      (∀ j < k, (s.after j).done = false ∧ (s.after j).steps < stepLimit) ∧
      (∀ input', ((lines input').filter fun line => !isLookup line) =
          ((lines input).filter fun line => !isLookup line) →
        (s.stepThrough input').session = s.after k ∧
        (s.stepThrough input').result = (s.stepThrough input).result) ∧
      (s.stepThrough input).unread <:+ lines input ∧
      ∀ front line back, lines input = front ++ line :: back →
        line ∈ [utf8 "c", utf8 "C", utf8 "q", utf8 "Q"] →
        back <:+ (s.stepThrough input).unread := by
  obtain ⟨k, hk, -⟩ := converse_reaches input s
  obtain ⟨hend, hsession, hresult⟩ := stepThrough_of_rests hk
  obtain ⟨hunread, hbehind⟩ := unread_ask (lines input) s #[.opening]
  refine ⟨k, hk, hend, hsession, ?_, ?_, ?_, ?_, ?_⟩
  · rw [hresult]
    cases s.faultAt k <;> rfl
  · intro j hj
    have hnot : ¬ s.Rests (allowance (lines input)) j := fun h => absurd (hk.2 h) (by omega)
    rw [Rests, not_or, not_or, not_or] at hnot
    exact ⟨Bool.not_eq_true _ ▸ hnot.2.1, UInt64.not_le.1 hnot.2.2.1⟩
  · intro input' hlines
    rw [← allowance_filter, ← hlines, allowance_filter] at hk
    obtain ⟨-, hsession', hresult'⟩ := stepThrough_of_rests hk
    exact ⟨hsession', hresult'.trans hresult.symm⟩
  · rwa [stepThrough_eq]
  · intro front line back hlines hline
    rw [stepThrough_eq]
    refine hbehind front line back hlines ?_
    rcases hline with _ | ⟨_, _ | ⟨_, _ | ⟨_, _ | ⟨_, hline⟩⟩⟩⟩
    · exact Or.inr (by decide)
    · exact Or.inr (by decide)
    · exact Or.inl (by decide)
    · exact Or.inl (by decide)
    · contradiction

/-! ### Dialogues as they go along -/

/-- Tells events to a log. -/
def note (events : Array Event) : StateM (Array Event) Unit := modify (· ++ events)

/-- Turns over lines of input, from a prompt on, come to what the lines come to. -/
theorem run_turns (lines : List Text) (s : Session) (log : Array Event) (hdone : ¬ s.done = true) :
    (forIn (lines.map some ++ [none]) (Progress.going s) (turn note)).run (log.push s.prompt) =
      ((ask lines s log).progress, (ask lines s log).log) := by
  fun_induction ask lines s log with
  | case1 lines s log hover => exact absurd hover hdone
  | case2 s log _ events progress hanswer =>
    obtain ⟨rfl, rfl⟩ := Prod.mk.inj hanswer
    rfl
  | case3 s log _ line lines events t hanswer ih =>
    rw [List.map_cons, List.cons_append, List.forIn_cons, turn, hanswer]
    by_cases hover : t.done = true
    · simp only [await, if_pos hover, ask_of_done hover]
      rfl
    · simp only [await, if_neg hover]
      exact ih hover
  | case4 s log _ line lines events progress hlast hanswer =>
    rw [List.map_cons, List.cons_append, List.forIn_cons, turn, hanswer]
    rcases progress with t | t | ⟨t, f⟩
    · exact absurd rfl (hlast t)
    · rfl
    · rfl

/-- A dialogue that is held with the lines of an input as answers, and its end behind them, tells
    what the dialogue over the input has in its log up to the last word. -/
theorem run_hold (input : Text) (s : Session) :
    ∃ log, (s.hold note ((lines input).map some ++ [none])).run #[] =
        ((s.converse input).progress, log) ∧
      (s.converse input).log = log ++ farewell (s.converse input).progress := by
  refine ⟨(ask (lines input) s #[.opening]).log, ?_, rfl⟩
  rw [hold, converse]
  by_cases hdone : s.done = true
  · rw [await, if_pos hdone, ask_of_done hdone]
    rfl
  · rw [await, if_neg hdone]
    exact run_turns (lines input) s _ hdone

end Session

end NibbleMachine
