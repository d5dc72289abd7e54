import NibbleMachine.Instruction.Shape
import NibbleMachine.Proofs.Text.Cuts
import NibbleMachine.Proofs.Text.Numerals

/-!
The grammar of operand texts, and that a shape reads exactly the texts of its grammar.

`Spells r i vs t` says that `t` spells the operands `vs` from the one with index `i` on, of which
those below index `r` are registers. Each operand is a token, and every one but that of index 0 has
spaces before it. The reader never looks back and takes runs of digits and of spaces as far as they
go, so the grammar has to stop them in the right places: a token starts with no space, and what
follows a token starts with no digit.
-/

namespace NibbleMachine

open Text

/-- The texts of one operand: a numeral, after an `R` if it is a register. -/
def Token (register : Bool) (v : Operand) (t : Text) : Prop :=
  ∃ ds, Numeral ds v.toNat ∧ t = if register then Shape.registerMark :: ds else ds

/-- What stands before the operand of index `i`: nothing before the first, then spaces. -/
def Gap (i : Nat) (t : Text) : Prop :=
  if i = 0 then t = [] else t ≠ [] ∧ ∀ b ∈ t, b = space

/-- The texts that spell a row of operands, of which the first has the index `i`. -/
inductive Spells (r : Nat) : Nat → List Operand → Text → Prop
  | nil (i : Nat) : Spells r i [] []
  | cons {i : Nat} {v : Operand} {vs : List Operand} {gap token t : Text} (hgap : Gap i gap)
      (htoken : Token (i < r) v token) (ht : Spells r (i + 1) vs t) :
      Spells r i (v :: vs) (gap ++ token ++ t)

theorem Spells.eq_nil {r i : Nat} {t : Text} (h : Spells r i [] t) : t = [] := by
  cases h
  rfl

/-! ### Where the scanners stop -/

theorem Text.Numeral.stops_space {ds t : Text} {n : Nat} (h : Numeral ds n) :
    Stops (· == space) (ds ++ t) := by
  cases ds with
  | nil => exact absurd rfl h.ne_nil
  | cons b ds =>
    have hb := h.digit b (by simp)
    refine stops_cons.2 (beq_eq_false_iff_ne.2 ?_)
    rintro rfl
    exact absurd hb (by decide)

theorem Token.stops_space {register : Bool} {v : Operand} {token t : Text}
    (h : Token register v token) : Stops (· == space) (token ++ t) := by
  obtain ⟨ds, hds, rfl⟩ := h
  cases register with
  | true => exact stops_cons.2 (by decide)
  | false => exact hds.stops_space

/-- Operands after the first start with a space, so a digit never goes on into them. -/
theorem Spells.stops_digit {r i : Nat} {vs : List Operand} {t : Text} (h : Spells r (i + 1) vs t) :
    Stops isDigit t := by
  cases h with
  | nil => exact stops_nil _
  | @cons _ v vs gap token t hgap _ _ =>
    obtain ⟨hne, hspace⟩ : gap ≠ [] ∧ ∀ b ∈ gap, b = space := by simpa [Gap] using hgap
    cases gap with
    | nil => exact absurd rfl hne
    | cons b gap =>
      rw [hspace b (by simp)]
      exact stops_cons.2 (by decide)

/-! ### Numbers -/

namespace Shape

theorem readDigits_of_stops {n : UInt64} : ∀ {t : Text}, Stops isDigit t →
    readDigits n t = some (n.toUInt32, t)
  | [], _ => rfl
  | b :: t, h => by simp [readDigits, stops_cons.1 h]

/-- One more digit does not wrap: the value so far is an operand, and there is room for one digit
    more in 64 bits. -/
theorem toNat_pushDigit {n : UInt64} {b : UInt8} (hn : n.toNat < 2 ^ 32) (hb : isDigit b = true) :
    (n * 10 + (b - 48).toUInt64).toNat = 10 * n.toNat + digitNumber b := by
  have hd := digitNumber_of_isDigit hb
  obtain ⟨hlow, hhigh⟩ : 48 ≤ b ∧ b ≤ 57 := by simpa [isDigit] using hb
  have hsub : (b - 48).toNat = b.toNat - 48 := UInt8.toNat_sub_of_le _ _ hlow
  have hle : b.toNat ≤ 57 := UInt8.le_iff_toNat_le.1 hhigh
  rw [UInt64.toNat_add, UInt64.toNat_mul, UInt8.toNat_toUInt64, hsub, hd,
    show (10 : UInt64).toNat = 10 from rfl]
  omega

/-- A run of digits is read to its end, unless its value is too large for an operand. -/
theorem readDigits_run {rest : Text} (hrest : Stops isDigit rest) : ∀ (ds : Text) (n : UInt64),
    n.toNat < 2 ^ 32 → (∀ b ∈ ds, isDigit b = true) →
    readDigits n (ds ++ rest) =
      if spelledFrom .decimal n.toNat ds < 2 ^ 32 then
        some (UInt32.ofNat (spelledFrom .decimal n.toNat ds), rest) else none
  | [], n, hn, _ => by
    rw [List.nil_append, readDigits_of_stops hrest, spelledFrom_nil, if_pos hn]
    rfl
  | b :: ds, n, hn, hds => by
    have hb := hds b (by simp)
    have hpush := toNat_pushDigit hn hb
    have hstep : spelledFrom .decimal n.toNat (b :: ds) =
        spelledFrom .decimal (n * 10 + (b - 48).toUInt64).toNat ds := by
      rw [hpush, spelledFrom_cons, Radix.base]
    have hmax : (4294967295 : UInt64).toNat = 2 ^ 32 - 1 := rfl
    rw [hstep, List.cons_append, readDigits, if_pos hb]
    by_cases hbig : n * 10 + (b - 48).toUInt64 > 4294967295
    · -- the reader gives up here, and the digits to come only make the number larger
      have hle := le_spelledFrom .decimal ds (n * 10 + (b - 48).toUInt64).toNat
      have hlt := UInt64.lt_iff_toNat_lt.1 hbig
      rw [if_pos hbig, if_neg (by omega)]
    · have hle := UInt64.le_iff_toNat_le.1 (UInt64.not_lt.1 hbig)
      rw [if_neg hbig]
      exact readDigits_run hrest ds _ (by omega) fun c hc => hds c (by simp [hc])

theorem readDigits_zero {ds rest : Text} (hrest : Stops isDigit rest)
    (hds : ∀ b ∈ ds, isDigit b = true) :
    readDigits 0 (ds ++ rest) =
      if spelled .decimal ds < 2 ^ 32 then some (UInt32.ofNat (spelled .decimal ds), rest)
      else none :=
  readDigits_run hrest ds 0 (by decide) hds

/-- A number is a numeral whose value is an operand, and the digits of which go on no further. -/
theorem readNumber_eq_some_iff {t rest : Text} {v : Operand} :
    readNumber t = some (v, rest) ↔
      ∃ ds, Numeral ds v.toNat ∧ Stops isDigit rest ∧ t = ds ++ rest := by
  constructor
  · intro h
    have hsplit : t = t.takeWhile isDigit ++ t.dropWhile isDigit :=
      List.takeWhile_append_dropWhile.symm
    have hdigit : ∀ b ∈ t.takeWhile isDigit, isDigit b = true := fun b => List.mem_takeWhile_imp
    cases t with
    | nil => simp [readNumber] at h
    | cons b t =>
      cases hb : isDigit b with
      | false => simp [readNumber, hb] at h
      | true =>
        have hrun := readDigits_zero (stops_dropWhile isDigit (b :: t)) hdigit
        rw [← hsplit] at hrun
        simp only [readNumber, hb, if_true, hrun] at h
        split at h
        · rename_i hlt
          obtain ⟨rfl, rfl⟩ : _ = v ∧ _ = rest := by simpa using h
          refine ⟨_, ⟨by simp [hb], hdigit, ?_⟩, stops_dropWhile isDigit _, hsplit⟩
          rw [UInt32.toNat_ofNat_of_lt' hlt]
        · simp at h
  · rintro ⟨ds, hds, hrest, rfl⟩
    have hrun := readDigits_zero hrest hds.digit
    rw [hds.spelled, if_pos v.toNat_lt, UInt32.ofNat_toNat] at hrun
    cases ds with
    | nil => exact absurd rfl hds.ne_nil
    | cons b ds => simpa [readNumber, hds.digit b (by simp)] using hrun

/-! ### Operands -/

theorem skipSpaces_eq_some_iff {t rest : Text} :
    skipSpaces t = some rest ↔
      ∃ gap, (gap ≠ [] ∧ ∀ b ∈ gap, b = space) ∧ Stops (· == space) rest ∧ t = gap ++ rest := by
  constructor
  · intro h
    cases t with
    | nil => simp [skipSpaces] at h
    | cons b t =>
      simp only [skipSpaces, beq_iff_eq, Option.ite_none_right_eq_some, Option.some.injEq] at h
      obtain ⟨hb, rfl⟩ := h
      refine ⟨b :: t.takeWhile (· == space), ⟨by simp, ?_⟩, stops_dropWhile _ t, ?_⟩
      · intro c hc
        rcases List.mem_cons.1 hc with rfl | hc
        · exact hb
        · simpa using List.mem_takeWhile_imp hc
      · rw [List.cons_append, List.takeWhile_append_dropWhile]
  · rintro ⟨gap, ⟨hne, hgap⟩, hrest, rfl⟩
    cases gap with
    | nil => exact absurd rfl hne
    | cons b gap =>
      have hrun : ∀ c ∈ gap, (c == space) = true := fun c hc => by simp [hgap c (by simp [hc])]
      rw [List.cons_append, skipSpaces, if_pos (by simp [hgap b]), dropWhile_run hrun hrest]

theorem skipMark_eq_some_iff {t rest : Text} :
    skipMark t = some rest ↔ t = registerMark :: rest := by
  cases t with
  | nil => simp [skipMark]
  | cons b t => simp [skipMark]

/-- What `readFrom` does before the operand of index `i`. -/
def readGap (i : Nat) (t : Text) : Option Text := if i = 0 then some t else skipSpaces t

/-- What `readFrom` does with one operand. -/
def readToken (register : Bool) (t : Text) : Option (Operand × Text) :=
  (if register then skipMark t else some t).bind readNumber

/-- One operand more is a gap, a token and the rest. -/
theorem readFrom_succ (s : Shape) (i n : Nat) (t : Text) :
    s.readFrom i (n + 1) t =
      (readGap i t).bind fun t => (readToken (i < s.registers.toNat) t).bind fun x =>
        (s.readFrom (i + 1) n x.2).bind fun y => some (x.1 :: y.1, y.2) := by
  rw [readFrom, readGap]
  simp only [readToken, decide_eq_true_eq, Option.bind_assoc]
  split <;> split <;> rfl

/-- The reader of a gap takes all the spaces there are. -/
theorem readGap_eq_some_iff {i : Nat} {t rest : Text} :
    readGap i t = some rest ↔
      ∃ gap, Gap i gap ∧ (i ≠ 0 → Stops (· == space) rest) ∧ t = gap ++ rest := by
  by_cases hi : i = 0
  · simp [readGap, hi, Gap]
  · simp [readGap, hi, Gap, skipSpaces_eq_some_iff]

/-- The reader of one operand takes a token that no digit follows. -/
theorem readToken_eq_some_iff {register : Bool} {t rest : Text} {v : Operand} :
    readToken register t = some (v, rest) ↔
      ∃ token, Token register v token ∧ Stops isDigit rest ∧ t = token ++ rest := by
  rw [readToken, Option.bind_eq_some_iff]
  cases register with
  | true =>
    simp only [if_true, skipMark_eq_some_iff, readNumber_eq_some_iff, Token]
    constructor
    · rintro ⟨_, rfl, ds, hds, hrest, rfl⟩
      exact ⟨_, ⟨ds, hds, rfl⟩, hrest, rfl⟩
    · rintro ⟨_, ⟨ds, hds, rfl⟩, hrest, rfl⟩
      exact ⟨_, rfl, ds, hds, hrest, rfl⟩
  | false =>
    simp only [Bool.false_eq_true, if_false, Option.some.injEq, readNumber_eq_some_iff, Token]
    constructor
    · rintro ⟨_, rfl, ds, hds, hrest, rfl⟩
      exact ⟨ds, ⟨ds, hds, rfl⟩, hrest, rfl⟩
    · rintro ⟨ds, ⟨_, hds, rfl⟩, hrest, rfl⟩
      exact ⟨_, rfl, ds, hds, hrest, rfl⟩

/-- A row of operands is read to the end of its text exactly if the text spells it. -/
theorem readFrom_eq_some_nil_iff (s : Shape) : ∀ (n i : Nat) (t : Text) (vs : List Operand),
    s.readFrom i n t = some (vs, []) ↔ vs.length = n ∧ Spells s.registers.toNat i vs t
  | 0, i, t, vs => by
    rw [readFrom]
    constructor
    · intro h
      obtain ⟨rfl, rfl⟩ : [] = vs ∧ t = [] := by simpa using h
      exact ⟨rfl, .nil i⟩
    · rintro ⟨hlen, h⟩
      cases h with
      | nil => rfl
      | cons => simp at hlen
  | n + 1, i, t, vs => by
    rw [readFrom_succ]
    simp only [Option.bind_eq_some_iff, readGap_eq_some_iff, Prod.exists, readToken_eq_some_iff]
    constructor
    · rintro ⟨_, ⟨gap, hgap, -, rfl⟩, v, rest, ⟨token, htoken, -, rfl⟩, us, u, hrest, h⟩
      obtain ⟨rfl, rfl⟩ : v :: us = vs ∧ u = [] := by simpa using h
      obtain ⟨hlen, hspells⟩ := (readFrom_eq_some_nil_iff s n (i + 1) rest us).1 hrest
      exact ⟨by simp [hlen], List.append_assoc gap token rest ▸ .cons hgap htoken hspells⟩
    · rintro ⟨hlen, h⟩
      cases h with
      | nil => simp at hlen
      | @cons _ v us gap token rest hgap htoken hrest =>
        refine ⟨token ++ rest, ⟨gap, hgap, fun _ => htoken.stops_space, by simp⟩, v, rest,
          ⟨token, htoken, hrest.stops_digit, rfl⟩, us, [], ?_, rfl⟩
        exact (readFrom_eq_some_nil_iff s n (i + 1) rest us).2 ⟨by simpa using hlen, hrest⟩

/-- A shape reads exactly the texts that spell as many operands as it counts. -/
theorem read_eq_some_iff (s : Shape) (t : Text) (vs : List Operand) :
    s.read t = some vs ↔ vs.length = s.count.toNat ∧ Spells s.registers.toNat 0 vs t := by
  rw [← readFrom_eq_some_nil_iff, read]
  constructor
  · intro h
    split at h
    · rename_i us heq
      rwa [← Option.some.inj h]
    · simp at h
  · intro h
    rw [h]

end Shape

end NibbleMachine
