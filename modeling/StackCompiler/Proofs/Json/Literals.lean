import Mathlib.Data.List.TakeDrop
import Mathlib.Data.List.TakeWhile
import StackCompiler.Json.Reader

/-!
# Literals

A literal that is written denotes what it was written for: `unescape?` undoes `escape`, and the
digits of an integer denote that integer.  Every number literal is made of the characters that the
scanner takes for one token.
-/

namespace StackCompiler.Json

open Text (decimal isDigits)

variable {cs : List Char}

/-! ### Strings -/

/-- A short escape is read as the character that it stands for. -/
theorem pieces?_short {e c : Char} (h : shortEscape? e = some c) (hu : e ≠ 'u') (rest : List Char) :
  pieces? ('\\' :: e :: rest) = (pieces? rest).map (.char c :: ·)
  := by
  rw [pieces?]
  · cases hr : pieces? rest <;> simp [h]
  · intro _ _ _ _ _ he
    cases he
    contradiction

/-- A character that needs no escape is read as itself. -/
theorem pieces?_plain {c : Char} (h : ¬ (c = '\\' ∨ c = '"' ∨ c.toNat < 0x20)) (rest : List Char) :
  pieces? (c :: rest) = (pieces? rest).map (.char c :: ·)
  := by
  rw [pieces?, if_neg h]
  · cases hr : pieces? rest <;> simp
  · intro _ _ _ _ _ hc
    simp [hc] at h
  · intro _ _ hc
    simp [hc] at h

/-- The two digits of a control character spell its number. -/
theorem hexQuad?_control {n : Nat} (h : n < 0x20) :
  hexQuad? '0' '0' (Nat.digitChar (n / 16)) (Nat.digitChar (n % 16)) = some n
  := by
  revert n
  decide

/-- The escape of a control character is read as a unit with its number. -/
theorem pieces?_control {n : Nat} (h : n < 0x20) (rest : List Char) :
  pieces? (['\\', 'u', '0', '0', Nat.digitChar (n / 16), Nat.digitChar (n % 16)] ++ rest)
    = (pieces? rest).map (.unit n :: ·)
  := by
  simp only [List.cons_append, List.nil_append]
  rw [pieces?, hexQuad?_control h]
  cases hr : pieces? rest <;> simp

theorem joinPieces?_char (c : Char) (ps : List Piece) :
  joinPieces? (.char c :: ps) = (joinPieces? ps).map (c :: ·)
  := by
  cases h : joinPieces? ps <;> simp [joinPieces?, h]

/-- Joining puts the control character of a unit in front of what the other pieces give. -/
theorem joinPieces?_control {c : Char} (h : c.toNat < 0x20) (ps : List Piece) :
  joinPieces? (.unit c.toNat :: ps) = (joinPieces? ps).map (c :: ·)
  := by
  have hhigh : isHighSurrogate c.toNat = false := by simp [isHighSurrogate]; omega
  have hlow : isLowSurrogate c.toNat = false := by simp [isLowSurrogate]; omega
  rw [joinPieces?.eq_def]
  cases hr : joinPieces? ps <;> simp [hhigh, hlow, hr]

/-- Seven characters have an escape of two characters. -/
theorem exists_shortEscape {c : Char}
    (h : c ∈ ['"', '\\', '\x08', '\x0c', '\n', '\r', '\t']) :
  ∃ e, escapeChar c = ['\\', e] ∧ shortEscape? e = some c ∧ e ≠ 'u'
  := by
  simp only [List.mem_cons, List.not_mem_nil, or_false] at h
  rcases h with rfl | rfl | rfl | rfl | rfl | rfl | rfl <;> exact ⟨_, rfl, rfl, by decide⟩

/-- What is written for a character is read as one piece, which spells that character. -/
theorem exists_piece (c : Char) :
  ∃ p : Piece, (∀ rest, pieces? (escapeChar c ++ rest) = (pieces? rest).map (p :: ·))
    ∧ ∀ ps, joinPieces? (p :: ps) = (joinPieces? ps).map (c :: ·)
  := by
  by_cases hshort : c ∈ ['"', '\\', '\x08', '\x0c', '\n', '\r', '\t']
  · obtain ⟨e, he, hs, hu⟩ := exists_shortEscape hshort
    rw [he]
    exact ⟨.char c, pieces?_short hs hu, joinPieces?_char c⟩
  · simp only [List.mem_cons, List.not_mem_nil, or_false, not_or] at hshort
    obtain ⟨h₁, h₂, h₃, h₄, h₅, h₆, h₇⟩ := hshort
    by_cases hcontrol : c.toNat < 0x20
    · simp only [escapeChar, h₁, h₂, h₃, h₄, h₅, h₆, h₇, if_false, if_pos hcontrol]
      exact ⟨.unit c.toNat, pieces?_control hcontrol, joinPieces?_control hcontrol⟩
    · simp only [escapeChar, h₁, h₂, h₃, h₄, h₅, h₆, h₇, if_false, if_neg hcontrol]
      refine ⟨.char c, pieces?_plain ?_, joinPieces?_char c⟩
      simp [h₁, h₂, hcontrol]

/-- A text written with escapes is read as pieces which give the text when they are joined. -/
theorem exists_pieces (text : List Char) :
  ∃ ps, pieces? (escape text) = some ps ∧ joinPieces? ps = some text
  := by
  induction text with
  | nil => exact ⟨[], rfl, rfl⟩
  | cons c text ih =>
    obtain ⟨ps, hps, hjoin⟩ := ih
    obtain ⟨p, hp, hc⟩ := exists_piece c
    refine ⟨p :: ps, ?_⟩
    rw [escape, List.flatMap_cons, hp, ← escape, hps, hc, hjoin]
    exact ⟨rfl, rfl⟩

/-- The literal of a text denotes that text. -/
theorem unescape?_escape (text : List Char) :
  unescape? (escape text) = some text
  := by
  obtain ⟨ps, hps, hjoin⟩ := exists_pieces text
  rw [unescape?, hps]
  exact hjoin

/-- A text written with escapes is a literal. -/
theorem isLiteral_escape (text : List Char) :
  isLiteral (escape text) = true
  := by
  obtain ⟨ps, hps, -⟩ := exists_pieces text
  rw [isLiteral, hps]
  rfl

theorem text?_ofString (s : String) :
  (ofString s).text? = some s
  := by
  simp [ofString, text?, unescape?_escape]

/-! ### Digits -/

theorem decimal_toDigits (n : Nat) :
  decimal (Nat.toDigits 10 n) = n
  := Nat.ofDigitChars_ten_toDigits

/-- The decimal digits of a number are digits. -/
theorem isDigits_toDigits (n : Nat) :
  isDigits (Nat.toDigits 10 n) = true
  := by
  simp only [isDigits, Bool.and_eq_true, Bool.not_eq_true', List.isEmpty_eq_false_iff,
    List.all_eq_true]
  refine ⟨Nat.toDigits_ne_nil, ?_⟩
  intro c hc
  apply Nat.isDigit_of_mem_toDigits (by decide) (by decide) hc

/-- The digits of a number other than zero do not start with a zero. -/
theorem head_toDigits {n : Nat} (h : n ≠ 0) (rest : List Char) :
  Nat.toDigits 10 n ≠ '0' :: rest
  := by
  induction n using Nat.strongRecOn generalizing rest with
  | ind n ih =>
    by_cases hlt : n < 10
    · rw [Nat.toDigits_of_lt_base hlt]
      have hne : ∀ m < 10, m ≠ 0 → Nat.digitChar m ≠ '0' := by decide
      intro heq
      exact hne n hlt h (List.cons.inj heq).1
    · rw [Nat.toDigits_of_base_le (by decide) (by omega)]
      intro heq
      -- the first digit is that of the number without its last one
      obtain ⟨hnil, -⟩ | ⟨front, hfront, -⟩ := List.append_eq_cons_iff.mp heq
      · exact Nat.toDigits_ne_nil hnil
      · exact ih (n / 10) (by omega) (by omega) front hfront

/-- The decimal digits of a number have no leading zero. -/
theorem isWhole_toDigits (n : Nat) :
  isWhole (Nat.toDigits 10 n) = true
  := by
  by_cases h : n = 0
  · subst h
    rfl
  · rw [isWhole]
    · apply isDigits_toDigits
    · intro heq
      exact head_toDigits h _ heq
    · intro rest heq
      exact head_toDigits h _ heq

/-- The document of a number denotes the number. -/
theorem integer?_ofNat (n : Nat) :
  (ofNat n).integer? = some (n : Int)
  := by
  rw [ofNat, integer?, integerOfLiteral?, if_pos (isWhole_toDigits n), decimal_toDigits]
  intro rest heq
  have hdigit : '-'.isDigit = true := by
    apply Nat.isDigit_of_mem_toDigits (b := 10) (n := n) (by decide) (by decide)
    rw [heq]
    exact List.mem_cons_self
  contradiction

/-- The document of a number with a sign denotes the number. -/
theorem integer?_ofInt (n : Int) :
  (ofInt n).integer? = some n
  := by
  cases n with
  | ofNat n => exact integer?_ofNat n
  | negSucc n =>
    rw [ofInt, integer?, integerOfLiteral?, decimal_toDigits, isWhole_toDigits,
      if_pos ⟨rfl, Nat.succ_ne_zero n⟩]
    rfl

/-! ### Number literals -/

theorem isDigits_iff :
  isDigits cs = true ↔ cs ≠ [] ∧ ∀ c ∈ cs, c.isDigit = true
  := by
  simp [isDigits]

/-- A whole number is written with digits. -/
theorem isDigits_of_isWhole (h : isWhole cs = true) :
  isDigits cs = true
  := by
  unfold isWhole at h
  split at h
  · decide
  · contradiction
  · exact h

/-- A whole number is a number without a sign. -/
theorem isUnsigned_of_isWhole (h : isWhole cs = true) :
  isUnsigned cs = true
  := by
  obtain ⟨-, hdigits⟩ := isDigits_iff.mp (isDigits_of_isWhole h)
  have hspan : cs.span Char.isDigit = (cs, []) := by
    rw [List.span_eq_takeWhile_dropWhile, List.takeWhile_eq_self_iff.mpr hdigits,
      List.dropWhile_eq_nil_iff.mpr hdigits]
  rw [isUnsigned, hspan]
  exact h

/-- A whole number is a number literal. -/
theorem isNumber_of_isWhole (h : isWhole cs = true) :
  isNumber cs = true
  := by
  rw [isNumber]
  · apply isUnsigned_of_isWhole h
  · intro rest heq
    obtain ⟨-, hdigits⟩ := isDigits_iff.mp (isDigits_of_isWhole h)
    have hminus := hdigits '-' (by rw [heq]; exact List.mem_cons_self)
    contradiction

open Scanner (isBare)

theorem isBare_of_isDigit {c : Char} (h : c.isDigit = true) :
  isBare c = true
  := by
  simp [isBare, Char.isAlphanum, h]

theorem isBare_of_isDigits (h : isDigits cs = true) :
  ∀ c ∈ cs, isBare c = true
  := fun c hc => isBare_of_isDigit ((isDigits_iff.mp h).2 c hc)

theorem isBare_of_isExponent (h : isExponent cs = true) :
  ∀ c ∈ cs, isBare c = true
  := by
  unfold isExponent at h
  split at h
  · exact List.forall_mem_cons.mpr ⟨rfl, isBare_of_isDigits h⟩
  · exact List.forall_mem_cons.mpr ⟨rfl, isBare_of_isDigits h⟩
  · exact isBare_of_isDigits h

theorem isBare_exponent {e : Char} (he : e = 'e' ∨ e = 'E') (h : isExponent cs = true) :
  ∀ c ∈ e :: cs, isBare c = true
  := by
  apply List.forall_mem_cons.mpr ⟨?_, isBare_of_isExponent h⟩
  rcases he with rfl | rfl <;> rfl

/-- A text is bare when what follows its leading digits is. -/
theorem isBare_of_span {digits rest : List Char} (h : cs.span Char.isDigit = (digits, rest))
    (hrest : ∀ c ∈ rest, isBare c = true) :
  ∀ c ∈ cs, isBare c = true
  := by
  rw [List.span_eq_takeWhile_dropWhile, Prod.mk.injEq] at h
  rw [← List.takeWhile_append_dropWhile (p := Char.isDigit) (l := cs), List.forall_mem_append]
  refine ⟨?_, h.2 ▸ hrest⟩
  intro c hc
  apply isBare_of_isDigit (List.mem_takeWhile_imp hc)

/-- What follows the point of a number has characters of bare tokens only. -/
theorem isBare_of_isFractionTail (h : isFractionTail cs = true) :
  ∀ c ∈ cs, isBare c = true
  := by
  unfold isFractionTail at h
  split at h
  next digits hspan =>
    apply isBare_of_span hspan
    simp
  next digits e exponent hspan =>
    simp only [Bool.and_eq_true, Bool.or_eq_true, decide_eq_true_eq] at h
    apply isBare_of_span hspan
    apply isBare_exponent h.1.2 h.2

/-- A number without a sign has characters of bare tokens only. -/
theorem isBare_of_isUnsigned (h : isUnsigned cs = true) :
  ∀ c ∈ cs, isBare c = true
  := by
  unfold isUnsigned at h
  split at h
  next whole hspan =>
    apply isBare_of_span hspan
    simp
  next whole rest hspan =>
    simp only [Bool.and_eq_true] at h
    apply isBare_of_span hspan
    exact List.forall_mem_cons.mpr ⟨rfl, isBare_of_isFractionTail h.2⟩
  next whole e exponent _ hspan =>
    simp only [Bool.and_eq_true, Bool.or_eq_true, decide_eq_true_eq] at h
    apply isBare_of_span hspan
    apply isBare_exponent h.1.2 h.2

/-- The scanner takes a number literal for one token. -/
theorem isBare_of_isNumber (h : isNumber cs = true) :
  ∀ c ∈ cs, isBare c = true
  := by
  unfold isNumber at h
  split at h
  · exact List.forall_mem_cons.mpr ⟨rfl, isBare_of_isUnsigned h⟩
  · exact isBare_of_isUnsigned h

end StackCompiler.Json
