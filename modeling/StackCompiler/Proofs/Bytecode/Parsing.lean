import StackCompiler.Bytecode.Text
import StackCompiler.Proofs.Bytecode.Spelling
import StackCompiler.Proofs.Json.Literals

/-!
# Reading a spelling

Every layout of every spelling of a function is read as that function.  Each rule of the grammar is
followed over lexemes: a rule that finds its lexemes laid out takes them and leaves the text after
them, which is laid out in turn.  Rules are greedy, so what ends one is what follows: a separator
after each lexeme, and no number after an instruction.
-/

namespace StackCompiler.Bytecode

open Grammar

variable {α β : Type} {t : String} {ts us names : List String} {s : List Char}

/-! ### Separators -/

/-- The characters that separators start with. -/
def separatorStarts : List Char := [' ', '\t', '\r', '\n', '/']

/-- A comment without a line break in it is skipped up to the line break that ends it. -/
theorem skipFrom_comment {cs : List Char} (h : '\n' ∉ cs) (rest : List Char) :
  skipFrom true (cs ++ '\n' :: rest) = skipFrom false rest
  := by
  induction cs with
  | nil => simp [skipFrom]
  | cons c cs ih =>
    rw [List.mem_cons, not_or] at h
    rw [List.cons_append, skipFrom, if_neg (Ne.symm h.1), ih h.2]

/-- Skipping takes a separator as a whole, and goes on after it. -/
theorem skip_separator {sep : List Char} (h : Separator sep) (rest : List Char) :
  skip (sep ++ rest) = skip rest
  := by
  induction h with
  | nil => rfl
  | blank hc _ ih =>
    rw [← ih]
    simp only [List.mem_cons, List.not_mem_nil, or_false] at hc
    rcases hc with rfl | rfl | rfl | rfl <;> simp [skip, skipFrom, isBlank]
  | comment hcs _ ih =>
    rw [← ih]
    simp only [skip, List.cons_append, List.append_assoc, skipFrom]
    exact skipFrom_comment hcs _

/-- Whether a lexeme is not empty and starts neither with a blank nor with a slash. -/
def isSolid (t : String) : Bool :=
  match t.toList with
  | [] => false
  | c :: _ => c ∉ separatorStarts

/-- Skipping stops at a solid lexeme: nothing of it is a blank or starts a comment. -/
theorem skip_solid (h : isSolid t = true) (rest : List Char) :
  skip (t.toList ++ rest) = t.toList ++ rest
  := by
  unfold isSolid at h
  split at h
  · contradiction
  next c cs ht =>
    simp only [separatorStarts, List.mem_cons, List.not_mem_nil, or_false, not_or,
      decide_eq_true_eq] at h
    rw [ht, List.cons_append, skip, skipFrom]
    · simp [isBlank, h]
    · intro _ hc
      exact absurd hc h.2.2.2.2

/-- Before a lexeme, skipping leads to it, and what follows it is laid out. -/
theorem Laid.exists_skip (h : Laid (t :: ts) s) (ht : isSolid t = true) :
  ∃ rest, skip s = t.toList ++ rest ∧ Laid ts rest
  := by
  cases h with
  | lexeme hsep _ hrest =>
    rw [skip_separator hsep, skip_solid ht]
    exact ⟨_, rfl, hrest⟩

/-- A separator that is not empty starts with a blank or with the slash of a comment. -/
theorem Separator.exists_head {sep : List Char} (h : Separator sep) (hne : sep ≠ []) :
  ∃ c rest, sep = c :: rest ∧ c ∈ separatorStarts
  := by
  cases h with
  | nil => contradiction
  | blank hc _ => exact ⟨_, _, rfl, List.mem_append_left ['/'] hc⟩
  | comment => exact ⟨_, _, rfl, by simp [separatorStarts]⟩

/-- The text of lexemes that are laid out is never empty, and starts with a separator. -/
theorem Laid.exists_head (h : Laid ts s) :
  ∃ c rest, s = c :: rest ∧ c ∈ separatorStarts
  := by
  cases h with
  | done hsep hne => exact hsep.exists_head hne
  | lexeme hsep hne _ =>
    obtain ⟨c, rest, rfl, hc⟩ := hsep.exists_head hne
    exact ⟨c, _, rfl, hc⟩

/-- Lexemes that are laid out in a text are no more than its characters. -/
theorem Laid.length_le (h : Laid ts s) :
  ts.length ≤ s.length
  := by
  induction h with
  | done => simp
  | lexeme _ hne _ ih =>
    have hpos := List.length_pos_iff.mpr hne
    simp only [List.length_cons, List.length_append]
    omega

/-! ### Lexemes -/

theorem dropWord?_append (w rest : List Char) :
  dropWord? w (w ++ rest) = some rest
  := by
  induction w with
  | nil => rfl
  | cons c w ih => simp [dropWord?, ih]

/-- If lexemes that start with the solid word `w` are laid out in a text, the rule for `w` takes
it and leaves a text in which the others are laid out. -/
theorem Laid.exists_word {w : String} (h : Laid (w :: ts) s) (hw : isSolid w = true) :
  ∃ s', word w s = some s' ∧ Laid ts s'
  := by
  obtain ⟨rest, hskip, hrest⟩ := h.exists_skip hw
  exact ⟨rest, by rw [word, hskip, dropWord?_append], hrest⟩

/-- A word is refused at a lexeme that starts otherwise. -/
theorem Laid.word_eq_none {w : String} (h : Laid (t :: ts) s) (ht : isSolid t = true) (hw : w ≠ "")
    (hne : t.toList.head? ≠ w.toList.head?) :
  word w s = none
  := by
  obtain ⟨rest, hskip, -⟩ := h.exists_skip ht
  rw [word, hskip]
  have hw' : w.toList ≠ [] := by simpa using hw
  obtain ⟨d, ds, hd⟩ := List.exists_cons_of_ne_nil hw'
  unfold isSolid at ht
  split at ht
  · contradiction
  next c cs hc =>
    rw [hc, hd] at hne
    rw [hc, hd, List.cons_append, dropWord?, if_neg]
    simpa using Ne.symm hne

/-- Whether a text is a character of one class and then characters of another. -/
def isHeaded (isHead isTail : Char → Bool) : List Char → Bool
  | [] => false
  | c :: cs => isHead c && cs.all isTail

/-- What is headed ends at the separator after it. -/
theorem Laid.headed_append {isHead isTail : Char → Bool} {t : List Char} {rest : List Char}
    (h : Laid ts rest) (ht : isHeaded isHead isTail t = true)
    (htail : separatorStarts.any isTail = false) :
  headed isHead isTail (t ++ rest) = some (t, rest)
  := by
  obtain ⟨d, rest, rfl, hd⟩ := h.exists_head
  have hstop := List.any_eq_false.mp htail d hd
  cases t with
  | nil => contradiction
  | cons c cs =>
    simp only [isHeaded, Bool.and_eq_true, List.all_eq_true] at ht
    rw [List.cons_append, headed, if_pos ht.1, run, List.takeWhile_append_of_pos ht.2,
      List.dropWhile_append_of_pos ht.2, List.takeWhile_cons_of_neg hstop,
      List.dropWhile_cons_of_neg hstop, List.append_nil]

/-- A lexeme that starts with a character of a class is solid, if separators do not start with
characters of that class. -/
theorem isSolid_of_isHeaded {isHead isTail : Char → Bool} (ht : isHeaded isHead isTail t.toList = true)
    (hhead : separatorStarts.any isHead = false) :
  isSolid t = true
  := by
  unfold isHeaded at ht
  unfold isSolid
  split at ht
  · contradiction
  next c cs _ =>
    simp only [Bool.and_eq_true] at ht
    rw [decide_eq_true_eq]
    intro hc
    exact List.any_eq_false.mp hhead c hc ht.1

/-- If the first lexeme laid out in a text has a head and a tail of two classes, and separators
start with characters of neither, then the rule for such lexemes takes exactly this one. -/
theorem Laid.exists_headed {isHead isTail : Char → Bool} (h : Laid (t :: ts) s)
    (ht : isHeaded isHead isTail t.toList = true) (hhead : separatorStarts.any isHead = false)
    (htail : separatorStarts.any isTail = false) :
  ∃ rest, skip s = t.toList ++ rest ∧ headed isHead isTail (skip s) = some (t.toList, rest)
    ∧ Laid ts rest
  := by
  obtain ⟨rest, hskip, hrest⟩ := h.exists_skip (isSolid_of_isHeaded ht hhead)
  refine ⟨rest, hskip, ?_, hrest⟩
  rw [hskip, hrest.headed_append ht htail]

/-! ### Rules over lexemes -/

/-- Whether a lexeme is solid and does not start as a number does. -/
def isClear (t : String) : Bool :=
  isSolid t && t.toList.head?.all fun c => c ≠ '-' && !c.isDigit

/-- Whether no number follows at the start of lexemes. -/
def Clear (ts : List String) : Prop := ∀ t ∈ ts.head?, isClear t = true

theorem clear_cons (h : isClear t = true) (ts : List String) :
  Clear (t :: ts)
  := by
  simpa [Clear] using h

/-- Whether a rule takes the lexemes `ts` wherever they are laid out and no number follows, and
reads them as something that satisfies `good`. -/
def Reads {α : Type} (rule : Rule α) (ts : List String) (good : α → Prop) : Prop :=
  ∀ us s, Clear us → Laid (ts ++ us) s → ∃ a s', rule s = some (a, s') ∧ good a ∧ Laid us s'

/-- A rule that reads lexemes as something with a property reads them as something with any weaker
property. -/
theorem Reads.imp {rule : Rule α} {good better : α → Prop} (h : Reads rule ts good)
    (himp : ∀ a, good a → better a) :
  Reads rule ts better
  := by
  intro us s hus hs
  obtain ⟨a, s', hrule, ha, hs'⟩ := h us s hus hs
  exact ⟨a, s', hrule, himp a ha, hs'⟩

/-- A text is at least as long as the number of parts laid out in it. -/
theorem Laid.length_parts_le {parts : List (List String)} (h : Laid (parts.flatten ++ us) s)
    (hparts : ∀ part ∈ parts, part ≠ []) :
  parts.length ≤ s.length
  := by
  have hflatten : parts.length ≤ parts.flatten.length := by
    clear h
    induction parts with
    | nil => simp
    | cons part parts ih =>
      obtain ⟨hpart, hparts⟩ := List.forall_mem_cons.mp hparts
      have hpos := List.length_pos_iff.mpr hpart
      have hle := ih hparts
      simp only [List.length_cons, List.flatten_cons, List.length_append]
      omega
  have hle := h.length_le
  rw [List.length_append] at hle
  omega

/-- Repetition takes every part and stops where no part follows. -/
theorem Laid.exists_many {member : Rule α} {good : β → α → Prop} {xs : List β}
    {parts : List (List String)} (hs : Laid (parts.flatten ++ us) s)
    (h : List.Forall₂ (fun x part => Reads member part (good x)) xs parts)
    (hparts : ∀ part ∈ parts, part ≠ [] ∧ Clear part) (hus : Clear us)
    (hstop : ∀ s, Laid us s → member s = none) {fuel : Nat} (hfuel : xs.length ≤ fuel) :
  ∃ as s', many member fuel s = (as, s') ∧ List.Forall₂ good xs as ∧ Laid us s'
  := by
  induction h generalizing fuel s with
  | nil =>
    refine ⟨[], s, ?_, .nil, hs⟩
    cases fuel with
    | zero => rfl
    | succ fuel => rw [many, hstop s hs]
  | @cons x part xs parts hx _ ih =>
    obtain ⟨-, hparts'⟩ := List.forall_mem_cons.mp hparts
    have hclear : Clear (parts.flatten ++ us) := by
      cases parts with
      | nil => exact hus
      | cons part parts =>
        obtain ⟨hne, hclear⟩ := hparts' part List.mem_cons_self
        obtain ⟨t, ts, rfl⟩ := List.exists_cons_of_ne_nil hne
        exact hclear
    rw [List.flatten_cons, List.append_assoc] at hs
    obtain ⟨a, s', hmember, ha, hs'⟩ := hx _ _ hclear hs
    cases fuel with
    | zero => contradiction
    | succ fuel =>
      obtain ⟨as, s'', hmany, has, hs''⟩ := ih hs' hparts' (Nat.le_of_succ_le_succ hfuel)
      exact ⟨a :: as, s'', by simp [many, hmember, hmany], .cons ha has, hs''⟩

theorem intercalate_cons (part : List String) (parts : List (List String)) :
  [","].intercalate (part :: parts) = part ++ (parts.map ("," :: ·)).flatten
  := by
  induction parts generalizing part with
  | nil => simp
  | cons part' parts ih => simp [List.intercalate_cons_cons, ih]

/-- A member of a list after the comma before it. -/
def afterComma {α : Type} (member : Rule α) : Rule α := fun s => (word "," s).bind member

/-- What ends a list: a bracket, with or without a comma before it. -/
def IsListEnd (ts : List String) : Prop := ts = ["]"] ∨ ts = [",", "]"]

/-- A list is spelled as a bracket, its items with commas between them, and an end of a list. -/
theorem Listed.exists_end {items : List (List String)} (h : Listed items ts) :
  ∃ tail, IsListEnd tail ∧ ts = "[" :: ([","].intercalate items ++ tail)
  := by
  cases h with
  | plain => exact ⟨_, .inl rfl, rfl⟩
  | trailing => exact ⟨_, .inr rfl, rfl⟩

/-- An item of a list has no more lexemes than the list. -/
theorem Listed.length_le {items : List (List String)} {item : List String} (h : Listed items ts)
    (hitem : item ∈ items) :
  item.length ≤ ts.length
  := by
  obtain ⟨tail, -, rfl⟩ := h.exists_end
  obtain ⟨first, rest, rfl⟩ := List.exists_cons_of_ne_nil (List.ne_nil_of_mem hitem)
  simp only [intercalate_cons, List.length_cons, List.length_append]
  rcases List.mem_cons.mp hitem with rfl | hrest
  · omega
  · have hsub := List.sublist_flatten_of_mem (List.mem_map_of_mem (f := ("," :: ·)) hrest)
    have hle := hsub.length_le
    rw [List.length_cons] at hle
    omega

/-- A comma and a bracket, or the bracket alone, end a list. -/
theorem Laid.exists_listEnd {tail : List String} (htail : IsListEnd tail) (h : Laid (tail ++ us) s) :
  ∃ s', word "]" ((word "," s).getD s) = some s' ∧ Laid us s'
  := by
  rcases htail with rfl | rfl
  · obtain ⟨s', hword, hs'⟩ := h.exists_word (by decide)
    have hcomma : word "," s = none := h.word_eq_none (by decide) (by decide) (by decide)
    exact ⟨s', by rw [hcomma, Option.getD_none, hword], hs'⟩
  · obtain ⟨s₁, hcomma, hs₁⟩ := h.exists_word (by decide)
    obtain ⟨s', hword, hs'⟩ := hs₁.exists_word (by decide)
    exact ⟨s', by rw [hcomma, Option.getD_some, hword], hs'⟩

/-- A list in brackets is read when each of its items is and the bracket starts none. -/
theorem reads_bracketed {α β : Type} {member : Rule α} {good : β → α → Prop} {xs : List β}
    {items : List (List String)} {ts : List String}
    (h : List.Forall₂ (fun x item => Reads member item (good x)) xs items)
    (hts : Listed items ts) (hstop : ∀ us s, Laid ("]" :: us) s → member s = none) :
  Reads (bracketed member) ts (List.Forall₂ good xs)
  := by
  intro us s hus hs
  cases h with
  | nil =>
    cases hts with
    | plain =>
      obtain ⟨s₁, hopen, hs₁⟩ := hs.exists_word (by decide)
      obtain ⟨s₂, hclose, hs₂⟩ := hs₁.exists_word (by decide)
      exact ⟨[], s₂, by simp [bracketed, hopen, hstop _ _ hs₁, hclose], .nil, hs₂⟩
    | trailing hne => contradiction
  | @cons x item xs items hx hxs =>
    obtain ⟨tail, htail, rfl⟩ := hts.exists_end
    rw [intercalate_cons] at hs
    simp only [List.cons_append, List.append_assoc] at hs
    have htailClear : Clear (tail ++ us) := by
      rcases htail with rfl | rfl <;> exact clear_cons (by decide) _
    have hclear : Clear ((items.map ("," :: ·)).flatten ++ (tail ++ us)) := by
      cases items with
      | nil => exact htailClear
      | cons item items => exact clear_cons (by decide) _
    have hnext : List.Forall₂ (fun x part => Reads (afterComma member) part (good x)) xs
        (items.map ("," :: ·)) := by
      rw [List.forall₂_map_right_iff]
      apply hxs.imp
      intro x item hx us s hus hs
      obtain ⟨s₁, hcomma, hs₁⟩ := hs.exists_word (by decide)
      obtain ⟨a, s₂, hmember, ha, hs₂⟩ := hx us s₁ hus hs₁
      exact ⟨a, s₂, by simp [afterComma, hcomma, hmember], ha, hs₂⟩
    have hend : ∀ s, Laid (tail ++ us) s → afterComma member s = none := by
      intro s hs
      rcases htail with rfl | rfl
      · simp [afterComma, hs.word_eq_none (w := ",") (by decide) (by decide) (by decide)]
      · obtain ⟨s₁, hcomma, hs₁⟩ := hs.exists_word (by decide)
        simp [afterComma, hcomma, hstop _ _ hs₁]
    obtain ⟨s₁, hopen, hs₁⟩ := hs.exists_word (by decide)
    obtain ⟨a, s₂, hmember, ha, hs₂⟩ := hx _ _ hclear hs₁
    have hfuel : xs.length ≤ s₂.length := by
      rw [hxs.length_eq, ← List.length_map ("," :: ·)]
      apply hs₂.length_parts_le
      simp
    obtain ⟨as, s₃, hmany, has, hs₃⟩ := hs₂.exists_many hnext
      (by simp [clear_cons (show isClear "," = true by decide)]) htailClear hend hfuel
    obtain ⟨s₄, hclose, hs₄⟩ := hs₃.exists_listEnd htail
    refine ⟨a :: as, s₄, ?_, .cons ha has, hs₄⟩
    unfold afterComma at hmany
    simp [bracketed, hopen, hmember, hmany, hclose]

/-! ### Numbers -/

/-- The decimal digits of a number are a digit followed by digits. -/
theorem isHeaded_toDigits (n : Nat) :
  isHeaded Char.isDigit Char.isDigit (Nat.toDigits 10 n) = true
  := by
  obtain ⟨hne, hdigits⟩ := Json.isDigits_iff.mp (Json.isDigits_toDigits n)
  obtain ⟨c, cs, hcs⟩ := List.exists_cons_of_ne_nil hne
  rw [hcs] at hdigits ⊢
  simpa [isHeaded] using hdigits

theorem toList_toString_natCast (n : Nat) :
  (toString (n : Int)).toList = Nat.toDigits 10 n
  := Nat.toList_repr

/-- A negative number is written as a minus sign and the decimal digits of its size. -/
theorem toList_toString_negSucc (n : Nat) :
  (toString (Int.negSucc n)).toList = '-' :: Nat.toDigits 10 (n + 1)
  := by
  change ("-" ++ (n + 1).repr).toList = _
  rw [String.toList_append, Nat.toList_repr]
  rfl

/-- The digits of a number do not start with a minus sign. -/
theorem toDigits_ne_minus (n : Nat) (rest : List Char) :
  Nat.toDigits 10 n ≠ '-' :: rest
  := by
  intro h
  have hheaded := isHeaded_toDigits n
  rw [h] at hheaded
  contradiction

/-- The numeral with the decimal digits of `n` has the value `n`, wherever it stands. -/
theorem value_toDigits (n : Nat) (start : List Char) :
  (Numeral.mk (Nat.toDigits 10 n) start).value = n
  := by
  unfold Numeral.value
  split
  next digits hdigits => exact absurd hdigits (toDigits_ne_minus n digits)
  next => rw [Json.decimal_toDigits]

theorem value_minus (n : Nat) (start : List Char) :
  (Numeral.mk ('-' :: Nat.toDigits 10 n) start).value = -(n : Int)
  := by
  simp [Numeral.value, Json.decimal_toDigits]

/-- Where the digits of a number are laid out, skipping leads to them. -/
theorem Laid.exists_digits {n : Nat} (h : Laid (toString n :: ts) s) :
  ∃ rest, skip s = Nat.toDigits 10 n ++ rest
    ∧ headed Char.isDigit Char.isDigit (skip s) = some (Nat.toDigits 10 n, rest) ∧ Laid ts rest
  := by
  have hdigits : (toString n).toList = Nat.toDigits 10 n := Nat.toList_repr
  rw [← hdigits]
  apply h.exists_headed (hdigits ▸ isHeaded_toDigits n) (by decide) (by decide)

/-- The rule for counts reads a number that is written in decimal as that number. -/
theorem reads_count (n : Nat) :
  Reads count [toString n] (·.value = n)
  := by
  intro us s _ hs
  obtain ⟨rest, -, hheaded, hrest⟩ := hs.exists_digits
  exact ⟨_, rest, by simp [count, hheaded], value_toDigits n (skip s), hrest⟩

/-- Without a minus sign, a number is read as one without a sign. -/
theorem integer_eq_count (h : ∀ rest, skip s ≠ '-' :: rest) :
  integer s = count s
  := by
  unfold integer
  split
  next rest hskip => exact absurd hskip (h rest)
  next => rfl

/-- The rule for integers reads a number that is written in decimal, with a sign or without, as
that number. -/
theorem reads_integer (n : Int) :
  Reads integer [toString n] (·.value = n)
  := by
  intro us s hus hs
  cases n with
  | ofNat n =>
    obtain ⟨rest, hskip, -, -⟩ := Laid.exists_digits (n := n) hs
    obtain ⟨numeral, s', hcount, hvalue, hs'⟩ := reads_count n us s hus hs
    refine ⟨numeral, s', ?_, hvalue, hs'⟩
    rw [integer_eq_count, hcount]
    intro rest' hminus
    obtain ⟨c, cs, hcs⟩ := List.exists_cons_of_ne_nil (Nat.toDigits_ne_nil (n := n) (b := 10))
    rw [hskip, hcs, List.cons_append, List.cons.injEq] at hminus
    rw [hminus.1] at hcs
    exact toDigits_ne_minus n cs hcs
  | negSucc n =>
    have hsolid : isSolid (toString (Int.negSucc n)) = true := by
      rw [isSolid, toList_toString_negSucc]
      rfl
    obtain ⟨rest, hskip, hrest⟩ := hs.exists_skip hsolid
    rw [toList_toString_negSucc, List.cons_append] at hskip
    have hheaded := hrest.headed_append (isHeaded_toDigits (n + 1)) (by decide)
    refine ⟨_, rest, ?_, value_minus (n + 1) (skip s), hrest⟩
    simp [integer, hskip, hheaded]

theorem Laid.skip_eq_nil (h : Laid [] s) :
  skip s = []
  := by
  cases h with
  | done hsep _ =>
    rw [← List.append_nil s, skip_separator hsep]
    rfl

/-- Where no number follows, none is read. -/
theorem Laid.integer_eq_none (h : Laid us s) (hus : Clear us) :
  integer s = none
  := by
  cases us with
  | nil =>
    have hskip := h.skip_eq_nil
    rw [integer_eq_count (by simp [hskip])]
    simp [count, hskip, headed]
  | cons t us =>
    simp only [Clear, List.head?_cons, Option.mem_def, Option.some.injEq, forall_eq', isClear,
      Bool.and_eq_true] at hus
    obtain ⟨hsolid, hhead⟩ := hus
    obtain ⟨rest, hskip, -⟩ := h.exists_skip hsolid
    unfold isSolid at hsolid
    split at hsolid
    · contradiction
    next c cs ht =>
      rw [ht, List.cons_append] at hskip
      simp only [ht, List.head?_cons, Option.all_some, Bool.and_eq_true, decide_eq_true_eq,
        Bool.not_eq_true'] at hhead
      rw [integer_eq_count (by simp [hskip, hhead.1])]
      simp [count, hskip, headed, hhead.2]

/-! ### Constants -/

/-- The characters of a string that is written with escapes are taken up to the closing quote, and
not further. -/
theorem chars_escape (text rest : List Char) :
  chars (escape text ++ '"' :: rest) = some (escape text, '"' :: rest)
  := by
  induction text with
  | nil => simp [escape, chars]
  | cons c text ih =>
    rw [escape, List.flatMap_cons, ← escape, List.append_assoc]
    by_cases hc : c = '\\' ∨ c = '"'
    · simp [escapeChar, if_pos hc, chars, ih]
    · rw [escapeChar, if_neg hc, List.cons_append, List.nil_append, chars, if_neg hc, ih]
      · rfl
      · intro _ _ hslash
        simp [hslash] at hc

/-- Writing a text with escapes and reading the escapes back gives the text. -/
theorem unescape_escape (text : List Char) :
  unescape (escape text) = text
  := by
  induction text with
  | nil => rfl
  | cons c text ih =>
    rw [escape, List.flatMap_cons, ← escape]
    by_cases hc : c = '\\' ∨ c = '"'
    · rcases hc with rfl | rfl <;> simp [escapeChar, unescape, ih]
    · rw [escapeChar, if_neg hc, List.cons_append, List.nil_append, unescape, ih] <;>
        intros <;> simp_all

theorem toList_string_lexeme (text : String) :
  (Constant.string text).lexeme.toList = '"' :: (escape text.toList ++ ['"'])
  := by
  simp [Constant.lexeme]

/-- The lexeme of a string does not start as a number does. -/
theorem isClear_string (text : String) :
  isClear (Constant.string text).lexeme = true
  := by
  rw [isClear, isSolid, toList_string_lexeme]
  rfl

theorem isSolid_of_isClear (h : isClear t = true) :
  isSolid t = true
  := by
  rw [isClear, Bool.and_eq_true] at h
  exact h.1

/-- If the lexeme of a string comes first in a text, the rule for strings takes it and leaves a
text in which the others are laid out. -/
theorem Laid.exists_string {text : String} (h : Laid ((Constant.string text).lexeme :: ts) s) :
  ∃ rest, string s = some (escape text.toList, rest) ∧ Laid ts rest
  := by
  obtain ⟨rest, hskip, hrest⟩ := h.exists_skip (isSolid_of_isClear (isClear_string text))
  rw [toList_string_lexeme] at hskip
  refine ⟨rest, ?_, hrest⟩
  simp [string, word, hskip, dropWord?, chars_escape]

/-- A constant that starts as no word does is a number or a string. -/
theorem Laid.constant_eq (h : Laid (t :: ts) s) (ht : isSolid t = true)
    (hhead : t.toList.head?.all (· ∉ ['N', 't', 'f']) = true) :
  constant s = match integer s with
    | some (n, rest) => some (.integer n, rest)
    | none => (string s).map fun (cs, rest) => (.string cs, rest)
  := by
  have hword : ∀ w c, c ∈ ['N', 't', 'f'] → w ≠ "" → w.toList.head? = some c → word w s = none := by
    intro w c hc hw hwc
    apply h.word_eq_none ht hw
    intro heq
    rw [heq, hwc, Option.all_some, decide_eq_true_eq] at hhead
    exact hhead hc
  rewrite [constant, hword "None" 'N' (by decide) (by decide) (by decide),
    hword "true" 't' (by decide) (by decide) (by decide),
    hword "false" 'f' (by decide) (by decide) (by decide)]
  rfl

/-- A number starts with a minus sign or a digit. -/
theorem exists_head_toString (n : Int) :
  ∃ c cs, (toString n).toList = c :: cs ∧ (c = '-' ∨ c.isDigit = true)
  := by
  cases n with
  | ofNat n =>
    obtain ⟨c, cs, hcs⟩ := List.exists_cons_of_ne_nil (Nat.toDigits_ne_nil (n := n) (b := 10))
    refine ⟨c, cs, (toList_toString_natCast n).trans hcs, .inr ?_⟩
    apply Nat.isDigit_of_mem_toDigits (b := 10) (n := n) (by decide) (by decide)
    rw [hcs]
    exact List.mem_cons_self
  | negSucc n => exact ⟨_, _, toList_toString_negSucc n, .inl rfl⟩

/-- Where the rule for integers reads a number, the rule for constants reads the same number as a
constant. -/
theorem Laid.constant_toString {n : Int} {rest : List Char} {numeral : Numeral}
    (h : Laid (toString n :: ts) s) (hs : integer s = some (numeral, rest)) :
  constant s = some (.integer numeral, rest)
  := by
  obtain ⟨c, cs, ht, hc⟩ := exists_head_toString n
  have hne : ∀ others : List Char, others.all (fun d => d ≠ '-' && !d.isDigit) = true → c ∉ others := by
    intro others hothers hmem
    have hother := List.all_eq_true.mp hothers c hmem
    rcases hc with rfl | hc
    · contradiction
    · simp [hc] at hother
  have hsolid : isSolid (toString n) = true := by
    rw [isSolid, ht]
    exact decide_eq_true (hne _ (by decide))
  rw [h.constant_eq hsolid, hs]
  rw [ht]
  exact decide_eq_true (hne _ (by decide))

/-- A numeral whose value is in range is read as its value. -/
theorem Numeral.read_eq {numeral : Numeral} {n low high : Int} (h : numeral.value = n)
    (hlow : low ≤ n) (hhigh : n ≤ high) (text : List Char) :
  numeral.read text low high = .ok n
  := by
  rw [Numeral.read, h, if_pos ⟨hlow, hhigh⟩]

/-- The rule for constants reads the lexeme of a constant as a tree that stands for it. -/
theorem reads_constant (c : Constant) :
  Reads constant [c.lexeme] (fun tree => ∀ text, tree.read text = .ok c)
  := by
  intro us s hus hs
  cases c with
  | none =>
    obtain ⟨s', hword, hs'⟩ := Laid.exists_word (w := "None") hs (by decide)
    exact ⟨.none, s', by simp [constant, hword], fun _ => rfl, hs'⟩
  | boolean b =>
    have hnone : word "None" s = none := by
      apply hs.word_eq_none <;> cases b <;> decide
    cases b with
    | true =>
      obtain ⟨s', hword, hs'⟩ := Laid.exists_word (w := "true") hs (by decide)
      exact ⟨.boolean true, s', by simp [constant, hnone, hword], fun _ => rfl, hs'⟩
    | false =>
      have htrue : word "true" s = none := hs.word_eq_none (by decide) (by decide) (by decide)
      obtain ⟨s', hword, hs'⟩ := Laid.exists_word (w := "false") hs (by decide)
      exact ⟨.boolean false, s', by simp [constant, hnone, htrue, hword], fun _ => rfl, hs'⟩
  | integer n =>
    obtain ⟨numeral, s', hinteger, hvalue, hs'⟩ := reads_integer n.toInt us s hus hs
    refine ⟨.integer numeral, s', Laid.constant_toString hs hinteger, ?_, hs'⟩
    intro text
    rw [ConstantTree.read, Numeral.read_eq hvalue n.minValue_le_toInt n.toInt_le]
    exact congrArg (fun m => Except.ok (Constant.integer m)) n.ofInt_toInt
  | string text =>
    obtain ⟨rest, hstring, hrest⟩ := hs.exists_string
    refine ⟨.string (escape text.toList), rest, ?_, ?_, hrest⟩
    · rw [hs.constant_eq (isSolid_of_isClear (isClear_string text)),
        hs.integer_eq_none (clear_cons (isClear_string text) us), hstring]
      · rfl
      · rw [toList_string_lexeme]
        simp
    · intro source
      rw [ConstantTree.read, unescape_escape, String.ofList_toList]
      rfl

/-- There is no constant where a bracket closes. -/
theorem Laid.constant_eq_none {us : List String} {s : List Char} (h : Laid ("]" :: us) s) :
  constant s = none
  := by
  have hquote : word "\"" s = none := h.word_eq_none (by decide) (by decide) (by decide)
  rw [h.constant_eq (by decide) (by decide), h.integer_eq_none (clear_cons (by decide) us)]
  simp [string, hquote]

/-! ### Names and instructions -/

/-- The rule for identifiers reads an identifier as its name. -/
theorem reads_identifier {name : String} (h : isIdentifier name = true) :
  Reads identifier [name] (String.ofList · = name)
  := by
  intro us s _ hs
  have hname : isHeaded (fun c => c.isAlpha || c = '_') (fun c => c.isAlphanum || c = '_')
      name.toList = true := h
  obtain ⟨rest, -, hheaded, hrest⟩ := hs.exists_headed hname (by decide) (by decide)
  exact ⟨_, rest, hheaded, String.ofList_toList, hrest⟩

/-- There is no identifier where a bracket closes. -/
theorem Laid.identifier_eq_none {us : List String} {s : List Char} (h : Laid ("]" :: us) s) :
  identifier s = none
  := by
  obtain ⟨rest, hskip, -⟩ := h.exists_skip (by decide)
  rw [identifier, hskip]
  rfl

theorem isHeaded_mnemonic (op : Opcode) :
  isHeaded Char.isAlpha (fun c => c.isAlpha || c = '_') op.mnemonic.toList = true
  := by
  cases op <;> decide

theorem isClear_mnemonic (op : Opcode) :
  isClear op.mnemonic = true
  := by
  cases op <;> decide

theorem Opcode.parse_mnemonic (op : Opcode) :
  Opcode.parse op.mnemonic = .ok op
  := by
  have h : ofMnemonic? op.mnemonic = some op := by cases op <;> decide +kernel
  rw [parse, h]

/-- The rule for instructions reads the lexemes of an instruction as a tree that stands for it, if
it has an operand exactly when its opcode takes one. -/
theorem reads_instruction {i : Instruction} (h : i.operand.isSome = i.op.takesOperand) :
  Reads instruction i.lexemes (fun tree => ∀ text, tree.read text = .ok i)
  := by
  intro us s hus hs
  obtain ⟨op, operand⟩ := i
  obtain ⟨rest, -, hheaded, hrest⟩ := hs.exists_headed (isHeaded_mnemonic op) (by decide) (by decide)
  cases operand with
  | none =>
    have hinteger : integer rest = none := hrest.integer_eq_none hus
    refine ⟨⟨op.mnemonic.toList, none, skip s⟩, rest, ?_, ?_, hrest⟩
    · simp [instruction, mnemonic, hheaded, hinteger]
    · intro text
      simp [InstructionTree.read, Opcode.parse_mnemonic, bind, Except.bind, pure, Except.pure, ← h]
  | some n =>
    obtain ⟨numeral, s', hinteger, hvalue, hs'⟩ := reads_integer n.toInt us rest hus hrest
    refine ⟨⟨op.mnemonic.toList, some numeral, skip s⟩, s', ?_, ?_, hs'⟩
    · simp [instruction, mnemonic, hheaded, hinteger]
    · intro text
      dsimp only [InstructionTree.read]
      rw [Numeral.read_eq hvalue n.minValue_le_toInt n.toInt_le]
      simp [Opcode.parse_mnemonic, bind, Except.bind, pure, Except.pure, ← h]

/-- There is no instruction where a bracket closes. -/
theorem Laid.instruction_eq_none {us : List String} {s : List Char} (h : Laid ("]" :: us) s) :
  instruction s = none
  := by
  obtain ⟨rest, hskip, -⟩ := h.exists_skip (by decide)
  rw [instruction, mnemonic, hskip]
  rfl

/-- The rule for instructions reads the lexemes of several of them as trees that stand for them,
in the same order. -/
theorem reads_instructions {is : List Instruction}
    (h : ∀ i ∈ is, i.operand.isSome = i.op.takesOperand) :
  Reads instructions (instructionLexemes is)
    (List.Forall₂ (fun i tree => ∀ text, tree.read text = .ok i) is)
  := by
  intro us s _ hs
  rw [instructionLexemes, List.flatMap_def, List.cons_append, List.append_assoc] at hs
  have hparts : ∀ part ∈ is.map Instruction.lexemes, part ≠ [] ∧ Clear part := by
    simp only [List.forall_mem_map]
    intro i _
    exact ⟨List.cons_ne_nil _ _, clear_cons (isClear_mnemonic i.op) _⟩
  have hreads : List.Forall₂
      (fun i part => Reads instruction part (fun tree => ∀ text, tree.read text = .ok i)) is
      (is.map Instruction.lexemes) := by
    rw [List.forall₂_map_right_iff]
    exact List.forall₂_same.mpr fun i hi => reads_instruction (h i hi)
  obtain ⟨s₁, hopen, hs₁⟩ := hs.exists_word (by decide)
  have hfuel : is.length ≤ s₁.length := by
    rw [← List.length_map Instruction.lexemes]
    exact hs₁.length_parts_le fun part hpart => (hparts part hpart).1
  obtain ⟨trees, s₂, hmany, htrees, hs₂⟩ := hs₁.exists_many hreads hparts
    (clear_cons (by decide) us) (fun s hs => hs.instruction_eq_none) hfuel
  obtain ⟨s₃, hclose, hs₃⟩ := hs₂.exists_word (by decide)
  exact ⟨trees, s₃, by simp [instructions, hopen, hmany, hclose], htrees, hs₃⟩

/-! ### Functions -/

/-- A field and the lexeme after it are read when the value of the field is. -/
theorem Laid.exists_field {name close : String} {value : Rule α} {good : α → Prop}
    (h : Laid (name :: "=" :: (ts ++ close :: us)) s) (hname : isSolid name = true)
    (hclose : isClear close = true) (hvalue : Reads value ts good) :
  ∃ a s₁ s₂, field name value s = some (a, s₁) ∧ word close s₁ = some s₂ ∧ good a ∧ Laid us s₂
  := by
  obtain ⟨s₁, hword, hs₁⟩ := h.exists_word hname
  obtain ⟨s₂, hequals, hs₂⟩ := hs₁.exists_word (by decide)
  obtain ⟨a, s₃, hread, ha, hs₃⟩ := hvalue _ s₂ (clear_cons hclose us) hs₂
  obtain ⟨s₄, hend, hs₄⟩ := hs₃.exists_word (isSolid_of_isClear hclose)
  exact ⟨a, s₃, s₄, by simp [field, hword, hequals, hread], hend, ha, hs₄⟩

/-- A list of items of one lexeme each is read when each lexeme is. -/
theorem reads_words {α β : Type} {member : Rule α} {lexeme : β → String} {xs : List β}
    {ts : List String} {good : β → α → Prop} (h : ∀ x ∈ xs, Reads member [lexeme x] (good x))
    (hts : Listed (xs.map fun x => [lexeme x]) ts)
    (hstop : ∀ us s, Laid ("]" :: us) s → member s = none) :
  Reads (bracketed member) ts (List.Forall₂ good xs)
  := by
  apply reads_bracketed _ hts hstop
  rw [List.forall₂_map_right_iff]
  exact List.forall₂_same.mpr h

/-- Trees that stand for names one by one are these names. -/
theorem map_ofList_of_forall₂ {trees : List (List Char)}
    (h : List.Forall₂ (fun name tree => String.ofList tree = name) names trees) :
  trees.map String.ofList = names
  := by
  induction h with
  | nil => rfl
  | cons hname _ ih => rw [List.map_cons, hname, ih]

/-- The rule for a list of identifiers reads every spelling of a list of names as these names. -/
theorem reads_names (h : ∀ name ∈ names, isIdentifier name = true)
    (hts : Listed (names.map fun name => [name]) ts) :
  Reads (bracketed identifier) ts (fun trees => trees.map String.ofList = names)
  := by
  apply Reads.imp _ fun _ => map_ofList_of_forall₂
  apply reads_words (fun name hname => reads_identifier (h name hname)) hts
  exact fun _ _ hs => hs.identifier_eq_none

/-- Trees each of which is read as something are read one after the other as all of it. -/
theorem mapM_of_forall₂ {read : List Char → α → Except CompileError β} {xs : List β} {trees : List α}
    (h : List.Forall₂ (fun x tree => ∀ text, read text tree = .ok x) xs trees) (text : List Char) :
  trees.mapM (read text) = .ok xs
  := by
  induction h with
  | nil => rfl
  | cons hx _ ih =>
    rw [List.mapM_cons, hx text, ih]
    rfl

/-- Trees each of which is read as a function are read together as these functions. -/
theorem readAll_of_forall₂ {fs : List Function} {trees : List FunctionTree}
    (h : List.Forall₂ (fun f tree => ∀ text, tree.read text = .ok f) fs trees)
    (text : List Char) :
  FunctionTree.readAll text trees = .ok fs
  := by
  induction h with
  | nil => rfl
  | cons hf _ ih =>
    rw [FunctionTree.readAll, hf text, ih]
    rfl

/-- A tree is read as the function whose fields its parts are read as. -/
theorem FunctionTree.read_eq {f : Function} {tree : FunctionTree}
    (hfunctions : List.Forall₂ (fun g t => ∀ text, t.read text = .ok g) f.functions tree.functions)
    (hconstants : List.Forall₂ (fun c t => ∀ text, t.read text = .ok c) f.constants tree.constants)
    (hcount : tree.parameterCount.value = f.parameterCount.toNat)
    (hlocalVars : tree.localVars.map String.ofList = f.localVars)
    (hlocalRefVars : tree.localRefVars.map String.ofList = f.localRefVars)
    (hfreeVars : tree.freeVars.map String.ofList = f.freeVars)
    (hnames : tree.names.map String.ofList = f.names)
    (hinstructions : List.Forall₂ (fun i t => ∀ text, t.read text = .ok i) f.instructions
      tree.instructions)
    (text : List Char) :
  tree.read text = .ok f
  := by
  have hle : (f.parameterCount.toNat : Int) ≤ UInt64.size - 1 := by
    have hlt := f.parameterCount.toNat_lt_size
    omega
  cases f
  cases tree
  rw [FunctionTree.read, readAll_of_forall₂ hfunctions, mapM_of_forall₂ hconstants,
    mapM_of_forall₂ hinstructions, Numeral.read_eq hcount (Int.natCast_nonneg _) hle]
  simp only at hlocalVars hlocalRefVars hfreeVars hnames
  simp [bind, Except.bind, pure, Except.pure, hlocalVars, hlocalRefVars, hfreeVars, hnames]

/-- Where a list ends, no function follows. -/
theorem Laid.function_eq_none {us : List String} {s : List Char} (h : Laid ("]" :: us) s)
    (depth : Nat) :
  function depth s = none
  := by
  have hword : word "function" s = none := h.word_eq_none (by decide) (by decide) (by decide)
  cases depth with
  | zero => rfl
  | succ depth =>
    rw [function, hword]
    rfl

theorem andThen {x : Option α} {next : α → Option β} {a : α} {b : β} (h : x = some a)
    (hnext : next a = some b) :
  (x >>= next) = some b
  := Option.bind_eq_some_iff.mpr ⟨a, h, hnext⟩

/-- The lexemes of a function are read as that function when those of the functions nested in it
are. -/
theorem reads_function_of_nested {f : Function} {depth : Nat} {nested : List (List String)}
    {functions constants localVars localRefVars freeVars : List String} (hf : f.Writable)
    (hnested : List.Forall₂ (fun g part => Reads (function depth) part (fun tree => ∀ text, tree.read text = .ok g)) f.functions nested)
    (hfunctions : Listed nested functions)
    (hconstants : Listed (f.constants.map fun c => [c.lexeme]) constants)
    (hlocalVars : Listed (f.localVars.map fun name => [name]) localVars)
    (hlocalRefVars : Listed (f.localRefVars.map fun name => [name]) localRefVars)
    (hfreeVars : Listed (f.freeVars.map fun name => [name]) freeVars)
    (hnames : Listed (f.names.map fun name => [name]) names) :
  Reads (function (depth + 1))
    (functionLexemes functions constants [toString f.parameterCount.toNat] localVars localRefVars
      freeVars names (instructionLexemes f.instructions))
    (fun tree => ∀ text, tree.read text = .ok f)
  := by
  cases f with
  | mk fs cs count vs rs fvs ns is =>
    rw [Function.Writable] at hf
    obtain ⟨hidentifiers, hoperands, -⟩ := hf
    simp only [List.forall_mem_append] at hidentifiers
    obtain ⟨⟨⟨hvs, hrs⟩, hfvs⟩, hns⟩ := hidentifiers
    intro us s hus hs
    unfold functionLexemes at hs
    simp only [List.append_assoc, List.cons_append, List.nil_append] at hs
    obtain ⟨s₁, h₁, hs⟩ := hs.exists_word (by decide)
    obtain ⟨s₂, h₂, hs⟩ := hs.exists_word (by decide)
    obtain ⟨fts, s₃, s₄, h₃, h₄, hfts, hs⟩ := hs.exists_field (by decide) (by decide)
      (reads_bracketed hnested hfunctions fun _ _ hs => hs.function_eq_none depth)
    obtain ⟨cts, s₅, s₆, h₅, h₆, hcts, hs⟩ := hs.exists_field (by decide) (by decide)
      (reads_words (fun c _ => reads_constant c) hconstants fun _ _ hs => hs.constant_eq_none)
    rw [← List.singleton_append (x := toString count.toNat)] at hs
    obtain ⟨numeral, s₇, s₈, h₇, h₈, hnumeral, hs⟩ := hs.exists_field (by decide) (by decide)
      (reads_count count.toNat)
    obtain ⟨vts, s₉, s₁₀, h₉, h₁₀, hvts, hs⟩ := hs.exists_field (by decide) (by decide)
      (reads_names hvs hlocalVars)
    obtain ⟨rts, s₁₁, s₁₂, h₁₁, h₁₂, hrts, hs⟩ := hs.exists_field (by decide) (by decide)
      (reads_names hrs hlocalRefVars)
    obtain ⟨uts, s₁₃, s₁₄, h₁₃, h₁₄, huts, hs⟩ := hs.exists_field (by decide) (by decide)
      (reads_names hfvs hfreeVars)
    obtain ⟨nts, s₁₅, s₁₆, h₁₅, h₁₆, hnts, hs⟩ := hs.exists_field (by decide) (by decide)
      (reads_names hns hnames)
    obtain ⟨its, s₁₇, s₁₈, h₁₇, h₁₈, hits, hs⟩ := hs.exists_field (by decide) (by decide)
      (reads_instructions hoperands)
    refine ⟨⟨fts, cts, numeral, vts, rts, uts, nts, its⟩, s₁₈, ?_, ?_, hs⟩
    · rw [function]
      exact andThen h₁ <| andThen h₂ <| andThen h₃ <| andThen h₄ <| andThen h₅ <| andThen h₆ <|
        andThen h₇ <| andThen h₈ <| andThen h₉ <| andThen h₁₀ <| andThen h₁₁ <| andThen h₁₂ <|
        andThen h₁₃ <| andThen h₁₄ <| andThen h₁₅ <| andThen h₁₆ <| andThen h₁₇ <| andThen h₁₈ rfl
    · exact FunctionTree.read_eq hfts hcts hnumeral hvts hrts huts hnts hits

/-- The lexemes of the functions inside a function are fewer than those of the function, so a
bound on the latter leaves room for the former. -/
theorem lt_length_functionLexemes
    {functions constants parameterCount localVars localRefVars freeVars instructions : List String}
    {n : Nat}
    (h : (functionLexemes functions constants parameterCount localVars localRefVars freeVars names instructions).length ≤ n) :
  functions.length < n
  := by
  unfold functionLexemes at h
  simp only [List.length_append, List.length_cons, List.length_nil] at h
  omega

/-- If functions are spelled part by part, each of them is writable, spelled by its part, and no
longer than the longest part. -/
theorem SpellsAll.forall₂ {fs : List Function} {parts : List (List String)} {n : Nat}
    (h : SpellsAll fs parts) (hfs : Function.AllWritable fs)
    (hlength : ∀ part ∈ parts, part.length ≤ n) :
  List.Forall₂ (fun f part => f.Writable ∧ Spells f part ∧ part.length ≤ n) fs parts
  := by
  induction fs generalizing parts with
  | nil =>
    cases h
    exact .nil
  | cons f fs ih =>
    rw [Function.AllWritable] at hfs
    cases h with
    | cons hf hrest =>
      obtain ⟨hpart, hparts⟩ := List.forall_mem_cons.mp hlength
      exact .cons ⟨hfs.1, hf, hpart⟩ (ih hrest hfs.2 hparts)

/-- The lexemes of a function are read as that function, to a depth of at least their number. -/
theorem reads_function {f : Function} (hf : f.Writable) (h : Spells f ts) {depth : Nat}
    (hdepth : ts.length ≤ depth) :
  Reads (function depth) ts (fun tree => ∀ text, tree.read text = .ok f)
  := by
  -- a nested function has fewer lexemes than the function around it
  induction depth generalizing f ts with
  | zero =>
    cases h
    exact absurd (lt_length_functionLexemes hdepth) (Nat.not_lt_zero _)
  | succ depth ih =>
    cases h with
    | function hnested hfunctions hconstants hlocalVars hlocalRefVars hfreeVars hnames =>
      have hlt := lt_length_functionLexemes hdepth
      refine reads_function_of_nested hf ?_ hfunctions hconstants hlocalVars hlocalRefVars hfreeVars
        hnames
      have hall : Function.AllWritable f.functions := by
        cases f
        rw [Function.Writable] at hf
        exact hf.2.2
      refine (hnested.forall₂ (n := depth) hall ?_).imp ?_
      · intro part hpart
        have hle := hfunctions.length_le hpart
        omega
      · intro g part ⟨hg, hpart, hle⟩
        apply ih hg hpart hle

/-- Every layout of every spelling of a function is read as that function. -/
theorem parse_of_spells {f : Function} {ts : List String} {text : List Char} (hf : f.Writable)
    (hts : Spells f ts) (htext : Laid ts text) :
  Function.parse (String.ofList text) = .ok f
  := by
  have hreads := reads_function hf hts htext.length_le
  rw [← List.append_nil ts] at htext
  obtain ⟨tree, rest, hfunction, hread, hrest⟩ := hreads [] text (by simp [Clear]) htext
  have hfile : file? text = some tree := by
    simp [file?, hfunction, hrest.skip_eq_nil]
  rw [Function.parse, String.toList_ofList, hfile]
  exact hread text

/-- The lexemes with the same separator everywhere. -/
def layout (sep : List Char) (ts : List String) : List Char :=
  ts.flatMap (fun t => sep ++ t.toList) ++ sep

/-- Lexemes with the same separator everywhere are laid out, if the separator is not empty. -/
theorem laid_layout {sep : List Char} (hsep : Separator sep) (hne : sep ≠ []) (ts : List String) :
  Laid ts (layout sep ts)
  := by
  induction ts with
  | nil => exact .done hsep hne
  | cons t ts ih =>
    have hlaid := Laid.lexeme (t := t) hsep hne ih
    rw [layout, List.flatMap_cons, List.append_assoc, List.append_assoc, ← layout]
    exact hlaid

/-- A function with a function in it, whose constants look like comments and ends of strings. -/
def nestedExample : Function := {
  functions := [{ names := ["_x1"], instructions := [⟨.loadGlobal, some 0⟩, ⟨.ret, none⟩] }]
  constants := [.string "a // \"b\\", .integer (-5), .none]
  parameterCount := 1
  localVars := ["None", "x"]
  instructions := [⟨.loadConst, some (-1)⟩, ⟨.add, none⟩, ⟨.ret, none⟩] }

/-- It is read with a comment and a tabulator between any two lexemes, and a comma after the last
item of some of its lists. -/
theorem parse_nestedExample :
  ∃ ts, nestedExample.Writable ∧ Spells nestedExample ts
    ∧ Function.parse (String.ofList (layout "// [\n\t".toList ts)) = .ok nestedExample
  := by
  have hwritable : nestedExample.Writable := by
    simp [nestedExample, Function.Writable, Function.AllWritable]
    decide
  have hspells := Spells.function (f := nestedExample)
    (.cons (.function .nil .plain .plain .plain .plain .plain (.trailing (by simp))) .nil)
    .plain (.trailing (by decide)) (.trailing (by decide)) .plain .plain .plain
  have hsep : Separator "// [\n\t".toList :=
    .comment (show '\n' ∉ [' ', '['] by decide) (.blank (by decide) .nil)
  exact ⟨_, hwritable, hspells, parse_of_spells hwritable hspells (laid_layout hsep (by decide) _)⟩

end StackCompiler.Bytecode
