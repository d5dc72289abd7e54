import Mathlib.Data.List.TakeWhile
import NibbleMachine.Text.Basic

/-!
What the cuts of a text take away and what they keep. A text is blanks, its trimmed form and blanks
again; it is what stands before its first `#` and a comment; a row of lines that hold no newline is
what the text of these lines is cut into.
-/

namespace NibbleMachine.Text

/-! ### Runs of bytes -/

/-- A text that does not go on with a byte of the class `p`. -/
def Stops (p : UInt8 → Bool) (t : Text) : Prop := ∀ b ∈ t.head?, p b = false

theorem stops_nil (p : UInt8 → Bool) : Stops p [] := by simp [Stops]

theorem stops_cons {p : UInt8 → Bool} {b : UInt8} {t : Text} : Stops p (b :: t) ↔ p b = false := by
  simp [Stops]

theorem Stops.of_append {p : UInt8 → Bool} {t u : Text} (h : Stops p (t ++ u)) : Stops p t := by
  cases t with
  | nil => exact stops_nil p
  | cons b t => exact stops_cons.2 (stops_cons.1 h)

theorem stops_dropWhile (p : UInt8 → Bool) : ∀ t : Text, Stops p (t.dropWhile p)
  | [] => stops_nil p
  | b :: t => by
    cases hb : p b with
    | true => simpa [hb] using stops_dropWhile p t
    | false => simpa [hb] using stops_cons.2 hb

theorem takeWhile_eq_nil {p : UInt8 → Bool} : ∀ {t : Text}, Stops p t → t.takeWhile p = []
  | [], _ => rfl
  | b :: t, h => by simp [stops_cons.1 h]

theorem dropWhile_eq_self {p : UInt8 → Bool} : ∀ {t : Text}, Stops p t → t.dropWhile p = t
  | [], _ => rfl
  | b :: t, h => by simp [stops_cons.1 h]

/-- A run of the class, with something behind it that does not go on with the class, is what
    `takeWhile` finds. -/
theorem takeWhile_run {p : UInt8 → Bool} {run t : Text} (hrun : ∀ b ∈ run, p b = true)
    (ht : Stops p t) : (run ++ t).takeWhile p = run := by
  rw [List.takeWhile_append_of_pos hrun, takeWhile_eq_nil ht, List.append_nil]

theorem dropWhile_run {p : UInt8 → Bool} {run t : Text} (hrun : ∀ b ∈ run, p b = true)
    (ht : Stops p t) : (run ++ t).dropWhile p = t := by
  rw [List.dropWhile_append_of_pos hrun, dropWhile_eq_self ht]

/-! ### Blanks -/

/-- Nothing but blanks. -/
def Blank (t : Text) : Prop := ∀ b ∈ t, isBlank b = true

theorem blank_nil : Blank [] := by simp [Blank]

theorem Blank.append {t u : Text} (ht : Blank t) (hu : Blank u) : Blank (t ++ u) := by
  intro b hb
  rcases List.mem_append.1 hb with hb | hb
  · exact ht b hb
  · exact hu b hb

/-- A text whose first and last bytes are not blank. -/
def Solid (t : Text) : Prop := Stops isBlank t ∧ Stops isBlank t.reverse

theorem trim_blank_append {w : Text} (hw : Blank w) (t : Text) : trim (w ++ t) = trim t := by
  rw [trim, List.dropWhile_append_of_pos hw, trim]

theorem trim_append_blank {w : Text} (hw : Blank w) (t : Text) : trim (t ++ w) = trim t := by
  rw [trim, trim, List.dropWhile_append]
  split
  · -- all of `t` is blank, so both texts trim to nothing
    rename_i ht
    have hw' : w.dropWhile isBlank = [] := List.dropWhile_eq_nil_iff.2 hw
    rw [hw', List.isEmpty_iff.1 ht]
  · have hw' : ∀ b ∈ w.reverse, isBlank b = true := fun b hb => hw b (List.mem_reverse.1 hb)
    rw [List.reverse_append, List.dropWhile_append_of_pos hw']

theorem trim_of_blank {w : Text} (hw : Blank w) : trim w = [] := by
  rw [← List.nil_append w, trim_append_blank hw]
  rfl

theorem trim_of_solid {t : Text} (ht : Solid t) : trim t = t := by
  rw [trim, dropWhile_eq_self ht.1, dropWhile_eq_self ht.2, List.reverse_reverse]

theorem solid_trim (t : Text) : Solid (trim t) := by
  constructor
  · -- trimming the end leaves the front as it was
    have hfront : t.dropWhile isBlank =
        trim t ++ ((t.dropWhile isBlank).reverse.takeWhile isBlank).reverse := by
      rw [trim, ← List.reverse_append, List.takeWhile_append_dropWhile, List.reverse_reverse]
    have hstops := stops_dropWhile isBlank t
    rw [hfront] at hstops
    exact hstops.of_append
  · rw [trim, List.reverse_reverse]
    exact stops_dropWhile isBlank _

theorem trim_between {lead t trail : Text} (hlead : Blank lead) (htrail : Blank trail)
    (ht : Solid t) : trim (lead ++ t ++ trail) = t := by
  rw [trim_append_blank htrail, trim_blank_append hlead, trim_of_solid ht]

/-- A text is its trimmed form between two runs of blanks. -/
theorem exists_trim (t : Text) :
    ∃ lead trail, Blank lead ∧ Blank trail ∧ t = lead ++ trim t ++ trail := by
  refine ⟨t.takeWhile isBlank, ((t.dropWhile isBlank).reverse.takeWhile isBlank).reverse,
    fun b hb => List.mem_takeWhile_imp hb,
    fun b hb => List.mem_takeWhile_imp (List.mem_reverse.1 hb), ?_⟩
  rw [trim, List.append_assoc, ← List.reverse_append, List.takeWhile_append_dropWhile,
    List.reverse_reverse, List.takeWhile_append_dropWhile]

/-! ### Comments -/

/-- What may stand behind the code of a line: a comment or nothing. -/
def Comment (t : Text) : Prop := t = [] ∨ ∃ c, t = hash :: c

/-- Code is a line up to its first `#`. -/
theorem dropComment_append {code c : Text} (hcode : hash ∉ code) (hc : Comment c) :
    dropComment (code ++ c) = code := by
  refine takeWhile_run (fun b hb => ?_) ?_
  · simpa using fun h : b = hash => hcode (h ▸ hb)
  · rcases hc with rfl | ⟨c, rfl⟩
    · exact stops_nil _
    · exact stops_cons.2 (by simp)

theorem hash_notMem_dropComment (t : Text) : hash ∉ dropComment t :=
  fun h => absurd (List.mem_takeWhile_imp h) (by simp)

theorem exists_comment (t : Text) : ∃ c, Comment c ∧ t = dropComment t ++ c := by
  refine ⟨t.dropWhile (· != hash), ?_, List.takeWhile_append_dropWhile.symm⟩
  cases h : t.dropWhile (· != hash) with
  | nil => exact Or.inl rfl
  | cons b c =>
    have hstop : Stops (· != hash) (b :: c) := h ▸ stops_dropWhile (· != hash) t
    exact Or.inr ⟨c, by simpa using stops_cons.1 hstop⟩

theorem hash_notMem_of_blank {w : Text} (hw : Blank w) : hash ∉ w :=
  fun h => absurd (hw _ h) (by decide)

/-! ### Zero bytes -/

theorem untilNul_of_notMem {t : Text} (h : 0 ∉ t) : untilNul t = t := by
  rw [untilNul, List.takeWhile_eq_self_iff]
  intro b hb
  simpa using fun hzero : b = 0 => h (hzero ▸ hb)

theorem zero_notMem_untilNul (t : Text) : 0 ∉ untilNul t :=
  fun h => absurd (List.mem_takeWhile_imp h) (by simp)

/-! ### Lines -/

theorem lines_append_newline {l : Text} (hl : newline ∉ l) (t : Text) :
    lines (l ++ newline :: t) = l :: lines t := by
  induction l with
  | nil => simp [lines_cons, consLine]
  | cons b l ih =>
    have hb : (b == newline) = false := by simpa using fun h : b = newline => hl (h ▸ by simp)
    rw [List.cons_append, lines_cons, ih (fun h => hl (List.mem_cons_of_mem _ h))]
    simp [consLine, hb]

/-- Lines that hold no newline are read back from the text that has them one after the other. -/
theorem lines_flatMap {α : Type} (f : α → Text) : ∀ {l : List α}, (∀ a ∈ l, newline ∉ f a) →
    lines (l.flatMap fun a => f a ++ [newline]) = l.map f
  | [], _ => rfl
  | a :: l, h => by
    rw [List.flatMap_cons, List.append_assoc, List.singleton_append,
      lines_append_newline (h a (by simp)), lines_flatMap f fun b hb => h b (by simp [hb]),
      List.map_cons]

/-- A text can be taken line by line. -/
theorem line_induction {P : Text → Prop} (last : ∀ l, newline ∉ l → P l)
    (line : ∀ l t, newline ∉ l → P t → P (l ++ newline :: t)) (t : Text) : P t := by
  -- `l` is what has been seen of the first line
  have hfrom : ∀ (t l : Text), newline ∉ l → P (l ++ t) := by
    intro t
    induction t with
    | nil =>
      intro l hl
      rw [List.append_nil]
      exact last l hl
    | cons b t ih =>
      intro l hl
      by_cases hb : b = newline
      · rw [hb]
        exact line l t hl (ih [] List.not_mem_nil)
      · rw [List.append_cons]
        exact ih (l ++ [b]) (by simp [hl, Ne.symm hb])
  exact hfrom t [] List.not_mem_nil

theorem lines_eq_singleton {l : Text} (hl : newline ∉ l) (hne : l ≠ []) : lines l = [l] := by
  induction l with
  | nil => exact absurd rfl hne
  | cons b l ih =>
    have hb : (b == newline) = false := by simpa using fun h : b = newline => hl (h ▸ by simp)
    cases l with
    | nil => simp [lines_cons, consLine, hb]
    | cons c l =>
      rw [lines_cons, ih (fun h => hl (List.mem_cons_of_mem _ h)) (by simp)]
      simp [consLine, hb]

/-- The pieces between the newlines of a text are its lines, and behind a newline at the end there
    is one piece more, which is empty. -/
theorem splitOn_newline (t : Text) :
    t.splitOn newline = lines t ∨ t.splitOn newline = lines t ++ [[]] := by
  induction t using line_induction with
  | last l hl =>
    rw [List.splitOn_eq_singleton hl]
    by_cases hne : l = []
    · exact Or.inr (by rw [hne, lines_nil, List.nil_append])
    · exact Or.inl (lines_eq_singleton hl hne).symm
  | line l t hl ih =>
    rw [List.splitOn_append_cons_self_of_not_mem hl, lines_append_newline hl]
    rcases ih with ih | ih
    · exact Or.inl (by rw [ih])
    · exact Or.inr (by rw [ih, List.cons_append])

theorem length_splitOn_newline (t : Text) :
    (t.splitOn newline).length = t.count newline + 1 := by
  induction t using line_induction with
  | last l hl => rw [List.splitOn_eq_singleton hl, List.count_eq_zero.2 hl, List.length_singleton]
  | line l t hl ih =>
    rw [List.splitOn_append_cons_self_of_not_mem hl, List.length_cons, ih, List.count_append,
      List.count_eq_zero.2 hl, List.count_cons_self, Nat.zero_add]

end NibbleMachine.Text
