import NibbleMachine.Proofs.OperandGrammar

/-!
Operand texts cut into pieces. A piece is one operand: the gap before it and its token. A shape
reads a text exactly if the text can be cut into as many pieces as the shape has operands, and there
is only one way to cut it, since a gap ends at the first byte that is no space and a token at the
first that is no digit.

The reader of a number keeps a value of 64 bits and gives up as soon as the value is too large for
an operand. `accumulators` lists the values that it goes through. None of them has wrapped around:
before each digit the value is still an operand, which leaves room for the digit.
-/

namespace NibbleMachine

open Text

/-! ### Pieces -/

/-- An operand in a text: what stands before its token, and the token. -/
@[ext] structure Piece where
  gap : Text
  token : Text
  deriving DecidableEq, Repr

/-- The text of a row of pieces. -/
def joined (pieces : List Piece) : Text := pieces.flatMap fun piece => piece.gap ++ piece.token

/-- The pieces of a row of operands, of which the first has the index `i` and those below index `r`
    are registers. -/
structure Cut (r i : Nat) (vs : List Operand) (pieces : List Piece) : Prop where
  length : pieces.length = vs.length
  gap : ∀ k piece, pieces[k]? = some piece → Gap (i + k) piece.gap
  token : ∀ k piece v, pieces[k]? = some piece → vs[k]? = some v → Token (i + k < r) v piece.token

theorem cut_nil (r i : Nat) : Cut r i [] [] := ⟨rfl, by simp, by simp⟩

theorem cut_cons {r i : Nat} {v : Operand} {vs : List Operand} {piece : Piece}
    {pieces : List Piece} : Cut r i (v :: vs) (piece :: pieces) ↔
      Gap i piece.gap ∧ Token (i < r) v piece.token ∧ Cut r (i + 1) vs pieces := by
  have hindex : ∀ k, i + 1 + k = i + (k + 1) := fun k => by omega
  constructor
  · intro h
    refine ⟨h.gap 0 piece rfl, h.token 0 piece v rfl rfl, by simpa using h.length, ?_, ?_⟩
    · intro k p hp
      rw [hindex]
      exact h.gap (k + 1) p hp
    · intro k p w hp hw
      simpa only [hindex] using h.token (k + 1) p w hp hw
  · rintro ⟨hgap, htoken, hrest⟩
    refine ⟨by simp [hrest.length], ?_, ?_⟩
    · rintro (_ | k) p hp
      · obtain rfl : piece = p := by simpa using hp
        exact hgap
      · rw [← hindex]
        exact hrest.gap k p hp
    · rintro (_ | k) p w hp hw
      · obtain rfl : piece = p := by simpa using hp
        obtain rfl : v = w := by simpa using hw
        exact htoken
      · simpa only [hindex] using hrest.token k p w hp hw

/-- A text spells operands exactly if it can be cut into their pieces. -/
theorem spells_iff_cut {r : Nat} : ∀ {vs : List Operand} {i : Nat} {t : Text},
    Spells r i vs t ↔ ∃ pieces, Cut r i vs pieces ∧ t = joined pieces
  | [], i, t => by
    constructor
    · intro h
      exact ⟨[], cut_nil r i, h.eq_nil⟩
    · rintro ⟨pieces, hcut, rfl⟩
      obtain rfl : pieces = [] := List.length_eq_zero_iff.1 hcut.length
      exact .nil i
  | v :: vs, i, t => by
    constructor
    · intro h
      cases h with
      | @cons _ _ _ gap token rest hgap htoken hrest =>
        obtain ⟨pieces, hcut, rfl⟩ := spells_iff_cut.1 hrest
        exact ⟨⟨gap, token⟩ :: pieces, cut_cons.2 ⟨hgap, htoken, hcut⟩, by simp [joined]⟩
    · rintro ⟨pieces, hcut, rfl⟩
      cases pieces with
      | nil => exact absurd hcut.length (by simp)
      | cons piece pieces =>
        obtain ⟨hgap, htoken, hrest⟩ := cut_cons.1 hcut
        have hspells := Spells.cons hgap htoken (spells_iff_cut.2 ⟨pieces, hrest, rfl⟩)
        simpa [joined] using hspells

/-! ### One way to cut a text -/

theorem Gap.eq {i : Nat} {gap gap' t t' : Text} (hgap : Gap i gap) (hgap' : Gap i gap')
    (ht : Stops (· == space) t) (ht' : Stops (· == space) t') (h : gap ++ t = gap' ++ t') :
    gap = gap' := by
  by_cases hi : i = 0
  · rw [Gap, if_pos hi] at hgap hgap'
    rw [hgap, hgap']
  · rw [Gap, if_neg hi] at hgap hgap'
    have hrun : ∀ {g : Text}, (∀ b ∈ g, b = space) → ∀ b ∈ g, (b == space) = true :=
      fun hg b hb => by simp [hg b hb]
    rw [← takeWhile_run (hrun hgap.2) ht, h, takeWhile_run (hrun hgap'.2) ht']

theorem Token.eq {register : Bool} {v w : Operand} {token token' t t' : Text}
    (hv : Token register v token) (hw : Token register w token') (ht : Stops isDigit t)
    (ht' : Stops isDigit t') (h : token ++ t = token' ++ t') : token = token' ∧ v = w := by
  obtain ⟨ds, hds, rfl⟩ := hv
  obtain ⟨es, hes, rfl⟩ := hw
  have hdigits : ds ++ t = es ++ t' := by
    cases register with
    | true => exact (List.cons.inj h).2
    | false => exact h
  obtain rfl : ds = es := by
    rw [← takeWhile_run hds.digit ht, hdigits, takeWhile_run hes.digit ht']
  exact ⟨rfl, UInt32.toNat_inj.1 (hds.spelled.symm.trans hes.spelled)⟩

theorem Cut.stops_digit {r i : Nat} {vs : List Operand} {pieces : List Piece}
    (h : Cut r (i + 1) vs pieces) : Stops isDigit (joined pieces) :=
  (spells_iff_cut.2 ⟨pieces, h, rfl⟩).stops_digit

/-- A text can be cut in one way only, and the pieces tell the operands. -/
theorem Cut.unique {r : Nat} : ∀ {ps qs : List Piece} {vs ws : List Operand} {i : Nat},
    Cut r i vs ps → Cut r i ws qs → vs.length = ws.length → joined ps = joined qs →
    vs = ws ∧ ps = qs
  | [], [], vs, ws, i, hp, hq, _, _ => by
    have hvs := List.length_eq_zero_iff.1 hp.length.symm
    have hws := List.length_eq_zero_iff.1 hq.length.symm
    exact ⟨hvs.trans hws.symm, rfl⟩
  | [], _ :: _, _, _, _, hp, hq, hlen, _ => by
    rw [← hp.length, ← hq.length] at hlen
    simp at hlen
  | _ :: _, [], _, _, _, hp, hq, hlen, _ => by
    rw [← hp.length, ← hq.length] at hlen
    simp at hlen
  | p :: ps, q :: qs, [], _, _, hp, _, _, _ => absurd hp.length (by simp)
  | p :: ps, q :: qs, _ :: _, [], _, _, hq, _, _ => absurd hq.length (by simp)
  | p :: ps, q :: qs, v :: vs, w :: ws, i, hp, hq, hlen, h => by
    obtain ⟨hgap, htoken, hrest⟩ := cut_cons.1 hp
    obtain ⟨hgap', htoken', hrest'⟩ := cut_cons.1 hq
    have htext : p.gap ++ (p.token ++ joined ps) = q.gap ++ (q.token ++ joined qs) := by
      simpa [joined] using h
    have hgaps : p.gap = q.gap := hgap.eq hgap' htoken.stops_space htoken'.stops_space htext
    have htokens : p.token ++ joined ps = q.token ++ joined qs := by
      rw [hgaps] at htext
      exact List.append_cancel_left htext
    obtain ⟨htoken_eq, rfl⟩ := htoken.eq htoken' hrest.stops_digit hrest'.stops_digit htokens
    rw [htoken_eq] at htokens
    obtain ⟨rfl, rfl⟩ := hrest.unique hrest' (by simpa using hlen)
      (List.append_cancel_left htokens)
    exact ⟨rfl, by rw [Piece.ext hgaps htoken_eq]⟩

/-! ### The value that a number is read into -/

namespace Shape

/-- The values that the reader of a number goes through from a given one: the value after each digit
    that it reads, up to the first that is too large for an operand. -/
def accumulators (value : UInt64) : Text → List UInt64
  | [] => []
  | b :: t =>
    if isDigit b then
      let value := value * 10 + (b - 48).toUInt64
      if value > 4294967295 then [value] else value :: accumulators value t
    else []

/-- The reader gives up exactly if one of the values is too large, and otherwise it gives the last
    of them, and what stands behind the digits. -/
theorem readDigits_eq_accumulators : ∀ (t : Text) (value : UInt64), readDigits value t =
    if (accumulators value t).all (· ≤ 4294967295) then
      some (((accumulators value t).getLastD value).toUInt32,
        t.drop (accumulators value t).length)
    else none
  | [], value => by simp [readDigits, accumulators]
  | b :: t, value => by
    rw [readDigits, accumulators]
    cases hb : isDigit b with
    | false => simp
    | true =>
      simp only [if_true]
      by_cases hbig : value * 10 + (b - 48).toUInt64 > 4294967295
      · have hnot := UInt64.not_le.2 hbig
        rw [if_pos hbig, if_pos hbig, List.all_cons, decide_eq_false hnot]
        rfl
      · have hle := UInt64.not_lt.1 hbig
        rw [if_neg hbig, if_neg hbig, readDigits_eq_accumulators t]
        simp only [List.all_cons, hle, decide_true, Bool.true_and, List.getLastD_cons,
          List.length_cons, List.drop_succ_cons]

/-- Each value is the number that the digits up to there spell, so none has wrapped around. -/
theorem toNat_accumulators : ∀ (t : Text) (value : UInt64), value.toNat < 2 ^ 32 →
    ∀ k a, (accumulators value t)[k]? = some a →
      a.toNat = spelledFrom .decimal value.toNat (t.take (k + 1))
  | [], _, _, k, a, ha => by simp [accumulators] at ha
  | b :: t, value, hvalue, k, a, ha => by
    rw [accumulators] at ha
    cases hb : isDigit b with
    | false => simp [hb] at ha
    | true =>
      have hpush := toNat_pushDigit hvalue hb
      rw [List.take_succ_cons, spelledFrom_cons, Radix.base, ← hpush]
      simp only [hb, if_true] at ha
      by_cases hbig : value * 10 + (b - 48).toUInt64 > 4294967295
      · -- the reader stops here, so there is no further value
        rw [if_pos hbig] at ha
        rcases k with _ | k
        · obtain rfl := Option.some.inj ha
          rfl
        · simp at ha
      · rw [if_neg hbig] at ha
        have hle := UInt64.le_iff_toNat_le.1 (UInt64.not_lt.1 hbig)
        have hmax : (4294967295 : UInt64).toNat = 2 ^ 32 - 1 := rfl
        rcases k with _ | k
        · obtain rfl := Option.some.inj ha
          rfl
        · exact toNat_accumulators t _ (by omega) k a ha

/-! ### What a shape reads -/

/-- The ways in which a text spells the operands `vs` of a shape: it is cut into one piece for each
    register and one for the immediate. Nothing stands before the first token and only spaces, at
    least one, before each of the others. The tokens of registers are an `R` and a numeral, that of
    the immediate is a bare numeral, and their values are the operands. -/
structure Decomposes (s : Shape) (t : Text) (vs : List Operand) (pieces : List Piece) : Prop where
  count : vs.length = s.registers.toNat + s.immediate.toNat
  cut : Cut s.registers.toNat 0 vs pieces
  text : t = joined pieces

theorem toNat_count {s : Shape} (h : s.registers.toNat + s.immediate.toNat ≤ 2 ^ 32 - 1) :
    s.count.toNat = s.registers.toNat + s.immediate.toNat := by
  rw [count, UInt32.toNat_add]
  cases himm : s.immediate with
  | false => simp
  | true =>
    rw [himm, Bool.toNat_true] at h
    simp only [if_true, UInt32.toNat_one, Bool.toNat_true]
    omega

theorem read_eq_some_iff_decomposes {s : Shape}
    (h : s.registers.toNat + s.immediate.toNat ≤ 2 ^ 32 - 1) {t : Text} {vs : List Operand} :
    s.read t = some vs ↔ ∃ pieces, s.Decomposes t vs pieces := by
  rw [read_eq_some_iff, toNat_count h, spells_iff_cut]
  constructor
  · rintro ⟨hlen, pieces, hcut, htext⟩
    exact ⟨pieces, hlen, hcut, htext⟩
  · rintro ⟨pieces, hlen, hcut, htext⟩
    exact ⟨hlen, pieces, hcut, htext⟩

/-- A shape reads exactly the texts of its grammar. If the number of its operands can be counted in
    32 bits at all, it reads `vs` from a text exactly if the text can be cut into the pieces of
    `vs`, and nothing from any other text. There is one way only to cut a text. And the reader of a
    number never wraps around, however many digits it is given: the values that its result comes
    from are the numbers that the digits up to there spell. -/
theorem read_language (s : Shape) (h : s.registers.toNat + s.immediate.toNat ≤ 2 ^ 32 - 1)
    (t : Text) :
    (∀ vs, s.read t = some vs ↔ ∃ pieces, s.Decomposes t vs pieces) ∧
    (s.read t = none ↔ ¬ ∃ vs pieces, s.Decomposes t vs pieces) ∧
    (∀ vs ws ps qs, s.Decomposes t vs ps → s.Decomposes t ws qs → vs = ws ∧ ps = qs) ∧
    ∀ u : Text,
      readDigits 0 u = (if (accumulators 0 u).all (· ≤ 4294967295) then
        some (((accumulators 0 u).getLastD 0).toUInt32, u.drop (accumulators 0 u).length)
      else none) ∧
      ∀ k a, (accumulators 0 u)[k]? = some a → a.toNat = spelled .decimal (u.take (k + 1)) := by
  refine ⟨fun vs => read_eq_some_iff_decomposes h, ?_, ?_, fun u => ⟨?_, ?_⟩⟩
  · rw [Option.eq_none_iff_forall_ne_some, not_exists]
    exact forall_congr' fun vs => not_congr (read_eq_some_iff_decomposes h)
  · intro vs ws ps qs hp hq
    exact hp.cut.unique hq.cut (hp.count.trans hq.count.symm) (hp.text.symm.trans hq.text)
  · exact readDigits_eq_accumulators u 0
  · exact toNat_accumulators u 0 (by decide)

/-- Operands with leading zeros, at and above the largest that can be read. -/
theorem read_language_leading_zeros :
    let s : Shape := ⟨2, true⟩
    s.registers.toNat + s.immediate.toNat ≤ 2 ^ 32 - 1 ∧
      (∃ pieces, s.Decomposes (utf8 "R007  R15 00000000000000004294967295")
        [7, 15, 4294967295] pieces) ∧
      ¬ ∃ vs pieces, s.Decomposes (utf8 "R007  R15 00000000000000004294967296") vs pieces := by
  have hcount : (2 : UInt32).toNat + true.toNat ≤ 2 ^ 32 - 1 := by decide
  obtain ⟨hread, -⟩ := read_language ⟨2, true⟩ hcount (utf8 "R007  R15 00000000000000004294967295")
  obtain ⟨-, hnone, -⟩ :=
    read_language ⟨2, true⟩ hcount (utf8 "R007  R15 00000000000000004294967296")
  exact ⟨hcount, (hread _).1 (by decide +kernel), hnone.1 (by decide +kernel)⟩

end Shape

end NibbleMachine
