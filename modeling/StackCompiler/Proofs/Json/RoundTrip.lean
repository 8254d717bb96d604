import StackCompiler.Json.Writer
import StackCompiler.Proofs.Json.Literals

/-!
# Reading what was written

`tokens` is the token sequence of a document.  The scanner reads it off the pretty form of the
document, whatever the indentation, and the builder makes the document from it, whatever is open
around it.  So a document whose literals are valid is read back from its pretty form.  The number of
arrays and objects that are open at once in the text is the depth of the tree.
-/

namespace StackCompiler.Json

/-! ### Documents as token sequences -/

mutual

/-- Whether every literal of a document is a literal of its kind. -/
def Valid : Json → Prop
  | .null => True
  | .bool _ => True
  | .number literal => isNumber literal = true
  | .string literal => isLiteral literal = true
  | .array items => AllValid items
  | .object members => AllMembersValid members

/-- Whether every literal of some documents is a literal of its kind. -/
def AllValid : List Json → Prop
  | [] => True
  | v :: vs => Valid v ∧ AllValid vs

/-- Whether every key and every literal of some members is a literal of its kind. -/
def AllMembersValid : List (List Char × Json) → Prop
  | [] => True
  | (key, v) :: ms => isLiteral key = true ∧ Valid v ∧ AllMembersValid ms

end

mutual

/-- The tokens of a document. -/
def tokens : Json → List Token
  | .null => [.bare "null".toList]
  | .bool b => [.bare (boolText b)]
  | .number literal => [.bare literal]
  | .string literal => [.quoted literal]
  | .array items => .openArray :: (itemTokens items ++ [.closeArray])
  | .object members => .openObject :: (memberTokens members ++ [.closeObject])

/-- The tokens of items with commas between them. -/
def itemTokens : List Json → List Token
  | [] => []
  | [v] => tokens v
  | v :: vs => tokens v ++ .comma :: itemTokens vs

/-- The tokens of members with commas between them. -/
def memberTokens : List (List Char × Json) → List Token
  | [] => []
  | [(key, v)] => .quoted key :: .colon :: tokens v
  | (key, v) :: ms => .quoted key :: .colon :: (tokens v ++ .comma :: memberTokens ms)

end

/-! ### Scanning -/

namespace Scanner

/-- What the scanner makes of a text when it goes on from `s`. -/
def scanFrom (s : Scanner) (text : List Char) : Option (List Token) :=
  (text.foldlM step s).bind finish

/-- What the scanner makes of a text between tokens, after the given ones. -/
def scanAfter (before : List Token) (text : List Char) : Option (List Token) :=
  scanFrom ⟨.idle, before⟩ text

/-- Whether a text cannot go on with a bare token. -/
def Ends (text : List Char) : Prop := ∀ c ∈ text.head?, isBare c = false

theorem ends_cons {c : Char} (h : isBare c = false) (text : List Char) :
  Ends (c :: text)
  := by
  simpa [Ends] using h

theorem scanFrom_cons {s r : Scanner} {c : Char} (h : step s c = some r) (text : List Char) :
  scanFrom s (c :: text) = scanFrom r text
  := by
  simp [scanFrom, h]

/-- A blank or a token of one character leaves the scanner between tokens. -/
theorem scanAfter_cons {c : Char} {before after : List Token}
    (h : step ⟨.idle, before⟩ c = some ⟨.idle, after⟩) (text : List Char) :
  scanAfter before (c :: text) = scanAfter after text
  := scanFrom_cons h text

theorem ends_newline (level : Nat) (text : List Char) :
  Ends (newline level ++ text)
  := ends_cons rfl _

/-- A new line between tokens, with its indentation, is skipped. -/
theorem scanAfter_newline (before : List Token) (level : Nat) (text : List Char) :
  scanAfter before (newline level ++ text) = scanAfter before text
  := by
  have hblanks : ∀ n, scanAfter before (List.replicate n ' ' ++ text) = scanAfter before text := by
    intro n
    induction n with
    | zero => rfl
    | succ n ih => exact (scanFrom_cons rfl _).trans ih
  exact (scanFrom_cons rfl _).trans (hblanks _)

/-- A bare token starts where one of its characters follows another token. -/
theorem start_of_isBare {c : Char} (h : isBare c = true) (before : List Token) :
  start before c = some ⟨.bare [c], before⟩
  := by
  have hblank : ¬ isBlank c = true := by
    intro hc
    simp only [isBlank, Bool.or_eq_true, decide_eq_true_eq] at hc
    rcases hc with ((rfl | rfl) | rfl) | rfl <;> contradiction
  have hquote : c ≠ '"' := by
    rintro rfl
    contradiction
  rw [start, if_neg hblank, if_neg hquote, if_pos h]

/-- The scanner goes on in a bare token to the end of it. -/
theorem scanFrom_bare {cs : List Char} (h : ∀ c ∈ cs, isBare c = true) (seen : List Char)
    (before : List Token) {rest : List Char} (hrest : Ends rest) :
  scanFrom ⟨.bare seen, before⟩ (cs ++ rest)
    = scanAfter (.bare (seen.reverse ++ cs) :: before) rest
  := by
  induction cs generalizing seen with
  | nil =>
    cases rest with
    | nil => simp [scanAfter, scanFrom, finish]
    | cons c rest =>
      have hc : isBare c = false := by simpa [Ends] using hrest
      simp [scanAfter, scanFrom, step, hc]
  | cons c cs ih =>
    obtain ⟨hc, hcs⟩ := List.forall_mem_cons.mp h
    have hstep : step ⟨.bare seen, before⟩ c = some ⟨.bare (c :: seen), before⟩ := by
      simp [step, hc]
    rw [List.cons_append, scanFrom_cons hstep, ih hcs]
    simp

/-- Characters of bare tokens, up to where they end, are read as one token. -/
theorem scanAfter_bare {cs : List Char} (hne : cs ≠ []) (h : ∀ c ∈ cs, isBare c = true)
    (before : List Token) {rest : List Char} (hrest : Ends rest) :
  scanAfter before (cs ++ rest) = scanAfter (.bare cs :: before) rest
  := by
  obtain ⟨c, cs, rfl⟩ := List.exists_cons_of_ne_nil hne
  obtain ⟨hc, hcs⟩ := List.forall_mem_cons.mp h
  have hstep : step ⟨.idle, before⟩ c = some ⟨.bare [c], before⟩ := start_of_isBare hc before
  rw [List.cons_append, scanAfter, scanFrom_cons hstep, scanFrom_bare hcs [c] before hrest]
  rfl

/-- A hexadecimal digit neither ends a literal nor starts an escape. -/
theorem step_hexDigit {c : Char} {n : Nat} (h : hexDigit? c = some n) (seen : List Char)
    (before : List Token) :
  step ⟨.quoted seen, before⟩ c = some ⟨.quoted (c :: seen), before⟩
  := by
  have hquote : c ≠ '"' := by
    rintro rfl
    contradiction
  have hslash : c ≠ '\\' := by
    rintro rfl
    contradiction
  simp [step, hquote, hslash]

theorem scanFrom_escape (c : Char) (seen : List Char) (before : List Token) (text : List Char) :
  scanFrom ⟨.quoted seen, before⟩ ('\\' :: c :: text)
    = scanFrom ⟨.quoted (c :: '\\' :: seen), before⟩ text
  := (scanFrom_cons rfl _).trans (scanFrom_cons rfl _)

/-- The scanner goes on in a literal to the quote that ends it. -/
theorem scanFrom_literal {literal : List Char} (h : isLiteral literal = true) (seen : List Char)
    (before : List Token) (rest : List Char) :
  scanFrom ⟨.quoted seen, before⟩ (literal ++ '"' :: rest)
    = scanAfter (.quoted (seen.reverse ++ literal) :: before) rest
  := by
  obtain ⟨ps, hps⟩ := Option.isSome_iff_exists.mp h
  clear h
  fun_induction pieces? literal generalizing seen ps with
  | case1 =>
    rw [List.nil_append, scanFrom_cons (r := ⟨.idle, .quoted seen.reverse :: before⟩) rfl]
    simp [scanAfter]
  | case2 a b c d literal ih =>
    simp only [hexQuad?, Option.bind_eq_bind, Option.bind_eq_some_iff, Option.pure_def] at hps
    obtain ⟨-, ⟨w, hw, x, hx, y, hy, z, hz, -⟩, qs, hqs, -⟩ := hps
    simp only [List.cons_append]
    rw [scanFrom_escape, scanFrom_cons (step_hexDigit hw _ _), scanFrom_cons (step_hexDigit hx _ _),
      scanFrom_cons (step_hexDigit hy _ _), scanFrom_cons (step_hexDigit hz _ _), ih _ _ hqs]
    simp
  | case3 c literal _ ih =>
    simp only [Option.bind_eq_bind, Option.bind_eq_some_iff] at hps
    obtain ⟨-, -, qs, hqs, -⟩ := hps
    rw [List.cons_append, List.cons_append, scanFrom_escape, ih _ _ hqs]
    simp
  | case4 => contradiction
  | case5 c literal _ _ hc ih =>
    simp only [Option.bind_eq_bind, Option.bind_eq_some_iff] at hps
    obtain ⟨qs, hqs, -⟩ := hps
    have hstep : step ⟨.quoted seen, before⟩ c = some ⟨.quoted (c :: seen), before⟩ := by
      simp only [not_or] at hc
      simp [step, hc]
    rw [List.cons_append, scanFrom_cons hstep, ih _ _ hqs]
    simp

/-- A literal in quotes is read as one token. -/
theorem scanAfter_quote {literal : List Char} (h : isLiteral literal = true)
    (before : List Token) (rest : List Char) :
  scanAfter before (quote literal ++ rest) = scanAfter (.quoted literal :: before) rest
  := by
  have hquote : step ⟨.idle, before⟩ '"' = some ⟨.quoted [], before⟩ := rfl
  rw [quote, List.cons_append, List.append_assoc, scanAfter, scanFrom_cons hquote]
  exact scanFrom_literal h [] before rest

/-- The text of a truth value is read as one token. -/
theorem scanAfter_bool (b : Bool) (before : List Token) {rest : List Char} (hrest : Ends rest) :
  scanAfter before (boolText b ++ rest) = scanAfter (.bare (boolText b) :: before) rest
  := by
  have hne : boolText b ≠ [] := by
    cases b <;> decide
  have hbare : (boolText b).all isBare = true := by
    cases b <;> decide
  exact scanAfter_bare hne (List.all_eq_true.mp hbare) before hrest

mutual

/-- The scanner reads the tokens of a document off its pretty form. -/
theorem scanAfter_prettyAt {v : Json} (h : v.Valid) (level : Nat) (before : List Token)
    {rest : List Char} (hrest : Ends rest) :
  scanAfter before (prettyAt level v ++ rest) = scanAfter (v.tokens.reverse ++ before) rest
  := by
  cases v with
  | null =>
    have hbare : "null".toList.all isBare = true := by decide
    exact scanAfter_bare (List.cons_ne_nil _ _) (List.all_eq_true.mp hbare) before hrest
  | bool b => exact scanAfter_bool b before hrest
  | number literal =>
    rw [Valid] at h
    apply scanAfter_bare ?_ (isBare_of_isNumber h) before hrest
    rintro rfl
    contradiction
  | string literal =>
    rw [Valid] at h
    exact scanAfter_quote h before rest
  | array items =>
    rw [Valid] at h
    cases items with
    | nil => exact (scanFrom_cons rfl _).trans (scanFrom_cons rfl _)
    | cons v vs =>
      rw [prettyAt]
      simp only [List.append_assoc, List.cons_append, List.nil_append]
      rw [scanAfter_cons (c := '[') rfl, scanAfter_prettyItems h (level + 1) _ (ends_newline _ _),
        scanAfter_newline, scanAfter_cons (c := ']') rfl]
      simp [Json.tokens]
  | object members =>
    rw [Valid] at h
    cases members with
    | nil => exact (scanFrom_cons rfl _).trans (scanFrom_cons rfl _)
    | cons m ms =>
      rw [prettyAt]
      simp only [List.append_assoc, List.cons_append, List.nil_append]
      rw [scanAfter_cons (c := '\x7b') rfl,
        scanAfter_prettyMembers h (level + 1) _ (ends_newline _ _), scanAfter_newline,
        scanAfter_cons (c := '\x7d') rfl]
      simp [Json.tokens]

/-- The scanner reads the tokens of items off their pretty form. -/
theorem scanAfter_prettyItems {vs : List Json} (h : AllValid vs) (level : Nat)
    (before : List Token) {rest : List Char} (hrest : Ends rest) :
  scanAfter before (prettyItems level vs ++ rest)
    = scanAfter ((itemTokens vs).reverse ++ before) rest
  := by
  match vs, h with
  | [], _ => simp [prettyItems, itemTokens]
  | [v], h =>
    rw [AllValid] at h
    rw [prettyItems, itemTokens, List.append_assoc, scanAfter_newline,
      scanAfter_prettyAt h.1 level before hrest]
  | v :: w :: vs, h =>
    rw [AllValid] at h
    rw [prettyItems, itemTokens]
    · simp only [List.append_assoc, List.cons_append]
      rw [scanAfter_newline, scanAfter_prettyAt h.1 level before (ends_cons (c := ',') rfl _),
        scanAfter_cons (c := ',') rfl, scanAfter_prettyItems h.2 level _ hrest]
      simp
    · simp
    · simp

/-- The scanner reads the tokens of members off their pretty form. -/
theorem scanAfter_prettyMembers {ms : List (List Char × Json)} (h : AllMembersValid ms)
    (level : Nat) (before : List Token) {rest : List Char} (hrest : Ends rest) :
  scanAfter before (prettyMembers level ms ++ rest)
    = scanAfter ((memberTokens ms).reverse ++ before) rest
  := by
  match ms, h with
  | [], _ => simp [prettyMembers, memberTokens]
  | [(key, v)], h =>
    rw [AllMembersValid] at h
    rw [prettyMembers, memberTokens]
    simp only [List.append_assoc, List.cons_append]
    rw [scanAfter_newline, scanAfter_quote h.1, scanAfter_cons (c := ':') rfl,
      scanAfter_cons (c := ' ') rfl, scanAfter_prettyAt h.2.1 level _ hrest]
    simp
  | (key, v) :: m :: ms, h =>
    rw [AllMembersValid] at h
    rw [prettyMembers, memberTokens]
    · simp only [List.append_assoc, List.cons_append]
      rw [scanAfter_newline, scanAfter_quote h.1, scanAfter_cons (c := ':') rfl,
        scanAfter_cons (c := ' ') rfl,
        scanAfter_prettyAt h.2.1 level _ (ends_cons (c := ',') rfl _),
        scanAfter_cons (c := ',') rfl, scanAfter_prettyMembers h.2.2 level _ hrest]
      simp
    · simp
    · simp

end

end Scanner

/-- Scanning the pretty form of a document gives its tokens. -/
theorem scan_pretty {v : Json} (h : v.Valid) :
  scan (pretty v).toList = some v.tokens
  := by
  have hends : Scanner.Ends [] := by simp [Scanner.Ends]
  have hscan := Scanner.scanAfter_prettyAt h 0 [] hends
  rw [List.append_nil, List.append_nil] at hscan
  rw [pretty, String.toList_ofList]
  refine Eq.trans hscan ?_
  simp [Scanner.scanAfter, Scanner.scanFrom, Scanner.finish]

/-! ### Building -/

namespace Builder

/-- What the builder makes of tokens when it goes on from `b`. -/
def buildFrom (b : Builder) (ts : List Token) : Option Json := (ts.foldlM step b).bind finish

theorem buildFrom_cons {b r : Builder} {t : Token} (h : step b t = some r) (ts : List Token) :
  buildFrom b (t :: ts) = buildFrom r ts
  := by
  simp [buildFrom, h]

/-- A bare text that is no word is read as a number. -/
theorem scalar?_number {literal : List Char} (h : isNumber literal = true) :
  scalar? literal = some (.number literal)
  := by
  have hword : ∀ word, isNumber word = false → literal ≠ word := by
    rintro word hword rfl
    simp [h] at hword
  rw [scalar?, if_neg (hword _ (by decide)), if_neg (hword _ (by decide)),
    if_neg (hword _ (by decide)), if_pos h]

theorem step_bare {text : List Char} {v : Json} (h : scalar? text = some v) (stack : List Frame) :
  step ⟨.value, stack⟩ (.bare text) = some (complete v stack)
  := by
  simp [step, startValue, h]

theorem step_quoted {literal : List Char} (h : isLiteral literal = true) (stack : List Frame) :
  step ⟨.value, stack⟩ (.quoted literal) = some (complete (.string literal) stack)
  := by
  simp [step, startValue, h]

theorem step_key {key : List Char} (h : isLiteral key = true)
    (before : List (List Char × Json)) (stack : List Frame) :
  step ⟨.key before, stack⟩ (.quoted key) = some ⟨.colon before key, stack⟩
  := by
  simp [step, startMember, h]

/-- The first token of an item does not end the array. -/
theorem exists_itemTokens_cons (v : Json) (vs : List Json) :
  ∃ t ts, itemTokens (v :: vs) = t :: ts ∧ t ≠ .closeArray
  := by
  have hv : ∃ t ts, v.tokens = t :: ts ∧ t ≠ .closeArray := by cases v <;> simp [tokens]
  obtain ⟨t, ts, htokens, ht⟩ := hv
  cases vs <;> simp [itemTokens, htokens, ht]

theorem step_firstItem {t : Token} (h : t ≠ .closeArray) (stack : List Frame) :
  step ⟨.firstItem, stack⟩ t = step ⟨.value, .item [] :: stack⟩ t
  := by
  cases t <;> first | contradiction | rfl

/-- In an array just opened, items are read as where an item is due. -/
theorem buildFrom_firstItem (v : Json) (vs : List Json) (stack : List Frame) (rest : List Token) :
  buildFrom ⟨.firstItem, stack⟩ (itemTokens (v :: vs) ++ rest)
    = buildFrom ⟨.value, .item [] :: stack⟩ (itemTokens (v :: vs) ++ rest)
  := by
  obtain ⟨t, ts, htokens, ht⟩ := exists_itemTokens_cons v vs
  rw [htokens, List.cons_append, buildFrom, buildFrom, List.foldlM_cons, List.foldlM_cons,
    step_firstItem ht]

/-- In an object just opened, members are read as where a key is due. -/
theorem buildFrom_firstKey (m : List Char × Json) (ms : List (List Char × Json))
    (stack : List Frame) (rest : List Token) :
  buildFrom ⟨.firstKey, stack⟩ (memberTokens (m :: ms) ++ rest)
    = buildFrom ⟨.key [], stack⟩ (memberTokens (m :: ms) ++ rest)
  := by
  cases ms <;> rfl

mutual

/-- The builder makes a document from its tokens, whatever is open around it. -/
theorem buildFrom_tokens {v : Json} (h : v.Valid) (stack : List Frame) (rest : List Token) :
  buildFrom ⟨.value, stack⟩ (v.tokens ++ rest) = buildFrom (complete v stack) rest
  := by
  cases v with
  | null => rfl
  | bool b =>
    apply buildFrom_cons
    cases b <;> exact step_bare rfl stack
  | number literal =>
    rw [Valid] at h
    exact buildFrom_cons (step_bare (scalar?_number h) stack) rest
  | string literal =>
    rw [Valid] at h
    exact buildFrom_cons (step_quoted h stack) rest
  | array items =>
    rw [Valid] at h
    cases items with
    | nil => rfl
    | cons v vs =>
      simp only [tokens, List.cons_append, List.append_assoc, List.nil_append]
      rw [buildFrom_cons (r := ⟨.firstItem, stack⟩) rfl, buildFrom_firstItem,
        buildFrom_itemTokens (List.cons_ne_nil v vs) h [] stack rest, List.reverse_nil,
        List.nil_append]
  | object members =>
    rw [Valid] at h
    cases members with
    | nil => rfl
    | cons m ms =>
      simp only [tokens, List.cons_append, List.append_assoc, List.nil_append]
      rw [buildFrom_cons (r := ⟨.firstKey, stack⟩) rfl, buildFrom_firstKey,
        buildFrom_memberTokens (List.cons_ne_nil m ms) h [] stack rest, List.reverse_nil,
        List.nil_append]

/-- The builder makes the items of an array from their tokens, and completes the array where it is
closed. -/
theorem buildFrom_itemTokens {vs : List Json} (hne : vs ≠ []) (h : AllValid vs)
    (before : List Json) (stack : List Frame) (rest : List Token) :
  buildFrom ⟨.value, .item before :: stack⟩ (itemTokens vs ++ .closeArray :: rest)
    = buildFrom (complete (.array (before.reverse ++ vs)) stack) rest
  := by
  match vs, h with
  | [], _ => contradiction
  | [v], h =>
    rw [AllValid] at h
    rw [itemTokens, buildFrom_tokens h.1]
    apply buildFrom_cons
    simp [step, complete]
  | v :: w :: vs, h =>
    rw [AllValid] at h
    simp only [itemTokens, List.append_assoc, List.cons_append]
    rw [buildFrom_tokens h.1, complete,
      buildFrom_cons (r := ⟨.value, .item (v :: before) :: stack⟩) rfl,
      buildFrom_itemTokens (List.cons_ne_nil _ _) h.2 (v :: before) stack rest]
    simp

/-- The builder makes the members of an object from their tokens, and completes the object where
it is closed. -/
theorem buildFrom_memberTokens {ms : List (List Char × Json)} (hne : ms ≠ [])
    (h : AllMembersValid ms) (before : List (List Char × Json)) (stack : List Frame)
    (rest : List Token) :
  buildFrom ⟨.key before, stack⟩ (memberTokens ms ++ .closeObject :: rest)
    = buildFrom (complete (.object (before.reverse ++ ms)) stack) rest
  := by
  match ms, h with
  | [], _ => contradiction
  | [(key, v)], h =>
    rw [AllMembersValid] at h
    simp only [memberTokens, List.cons_append]
    rw [buildFrom_cons (step_key h.1 before stack),
      buildFrom_cons (r := ⟨.value, .member before key :: stack⟩) rfl, buildFrom_tokens h.2.1]
    apply buildFrom_cons
    simp [step, complete]
  | (key, v) :: m :: ms, h =>
    rw [AllMembersValid] at h
    simp only [memberTokens, List.cons_append, List.append_assoc]
    rw [buildFrom_cons (step_key h.1 before stack),
      buildFrom_cons (r := ⟨.value, .member before key :: stack⟩) rfl, buildFrom_tokens h.2.1,
      complete, buildFrom_cons (r := ⟨.key ((key, v) :: before), stack⟩) rfl,
      buildFrom_memberTokens (List.cons_ne_nil _ _) h.2.2 ((key, v) :: before) stack rest]
    simp

end

end Builder

/-- A document whose literals are valid is read back from its pretty form. -/
theorem parse_pretty {v : Json} (h : v.Valid) :
  parse v.pretty = some v
  := by
  rw [parse, scan_pretty h]
  have hbuild := Builder.buildFrom_tokens h [] []
  rw [List.append_nil] at hbuild
  exact hbuild

/-! ### Nesting -/

/-- The largest number of arrays and objects that are open at once in tokens, where `count` are open
at their start. -/
def deepest (count : Nat) : List Token → Nat
  | [] => count
  | .openArray :: ts => deepest (count + 1) ts
  | .openObject :: ts => deepest (count + 1) ts
  | .closeArray :: ts => max count (deepest (count - 1) ts)
  | .closeObject :: ts => max count (deepest (count - 1) ts)
  | _ :: ts => deepest count ts

/-- The largest number of arrays and objects that are open at once in a text. -/
def nesting (text : String) : Nat := deepest 0 ((scan text.toList).getD [])

mutual

/-- The depth of the tree of arrays and objects. -/
def depth : Json → Nat
  | .array items => depths items + 1
  | .object members => memberDepths members + 1
  | _ => 0

/-- The largest depth of some documents. -/
def depths : List Json → Nat
  | [] => 0
  | v :: vs => max (depth v) (depths vs)

/-- The largest depth of some members. -/
def memberDepths : List (List Char × Json) → Nat
  | [] => 0
  | (_, v) :: ms => max (depth v) (memberDepths ms)

end

theorem le_deepest (count : Nat) (ts : List Token) :
  count ≤ deepest count ts
  := by
  fun_induction deepest count ts <;> omega

mutual

/-- While a document is read, as many arrays and objects open as its tree is deep. -/
theorem deepest_tokens (v : Json) (count : Nat) (rest : List Token) :
  deepest count (v.tokens ++ rest) = max (count + v.depth) (deepest count rest)
  := by
  have hle := le_deepest count rest
  cases v with
  | array items =>
    simp only [tokens, List.cons_append, List.append_assoc, List.nil_append, deepest, depth]
    rw [deepest_itemTokens items, deepest]
    simp only [Nat.add_sub_cancel]
    omega
  | object members =>
    simp only [tokens, List.cons_append, List.append_assoc, List.nil_append, deepest, depth]
    rw [deepest_memberTokens members, deepest]
    simp only [Nat.add_sub_cancel]
    omega
  | _ => simp only [tokens, List.cons_append, List.nil_append, deepest, depth]; omega

/-- Items are as deep in their tokens as in the tree. -/
theorem deepest_itemTokens (vs : List Json) (count : Nat) (rest : List Token) :
  deepest count (itemTokens vs ++ rest) = max (count + depths vs) (deepest count rest)
  := by
  have hle := le_deepest count rest
  match vs with
  | [] =>
    simp only [itemTokens, depths, List.nil_append]
    omega
  | [v] =>
    rw [itemTokens, deepest_tokens v]
    simp [depths]
  | v :: w :: vs =>
    simp only [itemTokens, List.append_assoc, List.cons_append]
    simp only [deepest_tokens v, deepest, deepest_itemTokens (w :: vs), depths]
    omega

/-- Members are as deep in their tokens as in the tree. -/
theorem deepest_memberTokens (ms : List (List Char × Json)) (count : Nat) (rest : List Token) :
  deepest count (memberTokens ms ++ rest) = max (count + memberDepths ms) (deepest count rest)
  := by
  have hle := le_deepest count rest
  match ms with
  | [] =>
    simp only [memberTokens, memberDepths, List.nil_append]
    omega
  | [(key, v)] =>
    simp only [memberTokens, List.cons_append, deepest]
    rw [deepest_tokens v]
    simp [memberDepths]
  | (key, v) :: m :: ms =>
    simp only [memberTokens, List.append_assoc, List.cons_append, deepest]
    simp only [deepest_tokens v, deepest, deepest_memberTokens (m :: ms), memberDepths]
    omega

end

/-- The nesting of a document's pretty form is the depth of its tree. -/
theorem nesting_pretty {v : Json} (h : v.Valid) :
  nesting v.pretty = v.depth
  := by
  have htokens := deepest_tokens v 0 []
  rw [List.append_nil] at htokens
  rw [nesting, scan_pretty h, Option.getD_some, htokens]
  simp [deepest]

end StackCompiler.Json
