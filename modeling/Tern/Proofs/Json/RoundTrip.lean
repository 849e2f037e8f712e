import Tern.Json.Printer
import Tern.Json.Reader
import Tern.Proofs.Decimal.Numeral
import Tern.Proofs.Text.Wide

/-!
# Reading written JSON

Reading undoes writing on the values that reading can give at all: numbers without factors of
ten, and objects with their members in the order in which objects list them. A value has one row
of lexemes; the text written for it is cut into that row, and the reader that takes the row ends
with the value.

* `Json.readString_iff`: a string that is read is its code units, of which some may be half a pair;
* `Json.Canonical`: the values that have one written form only;
* `Json.spelled`: the lexemes of a value;
* `Json.parse_pretty`: a canonical value is read back from its text.
-/

namespace Tern

namespace Json

/-! ## Strings -/

theorem stringLength_plain {c : Char} (hQuote : c ≠ '"') (hBackslash : c ≠ '\\')
    (cs : List Char) : stringLength? (c :: cs) = (stringLength? cs).map (· + 1) := by
  rw [stringLength?.eq_def]
  split
  · next h => exact absurd (List.cons.inj h).1 hQuote
  · next h => exact absurd (List.cons.inj h).1 hBackslash
  · next h => rw [(List.cons.inj h).2]
  · next h => cases h

theorem stringUnits_plain {c : Char} (hBackslash : c ≠ '\\') (hControl : ¬c.toNat < 0x20)
    (cs : List Char) : stringUnits? (c :: cs) = (stringUnits? cs).map (Text.encode c ++ ·) := by
  rw [stringUnits?.eq_def]
  split
  · next h => cases h
  · next h => exact absurd (List.cons.inj h).1 hBackslash
  · next h => exact absurd (List.cons.inj h).1 hBackslash
  · next h =>
    obtain ⟨rfl, rfl⟩ := List.cons.inj h
    rw [if_neg (by simp [hBackslash, hControl])]
    cases stringUnits? cs <;> rfl

/-- The characters that an escape by number is made of. -/
theorem digitChar_hex {k : Nat} (hk : k < 16) :
    Nat.digitChar k ≠ '"' ∧ Nat.digitChar k ≠ '\\' ∧ digit? 16 (Nat.digitChar k) = some k := by
  have hAll : ∀ k < 16,
      Nat.digitChar k ≠ '"' ∧ Nat.digitChar k ≠ '\\' ∧ digit? 16 (Nat.digitChar k) = some k := by
    decide
  exact hAll k hk

theorem hexUnit_digits {n : Nat} (hn : n < 0x10000) :
    hexUnit? (Nat.digitChar (n / 4096)) (Nat.digitChar (n / 256 % 16))
      (Nat.digitChar (n / 16 % 16)) (Nat.digitChar (n % 16)) = some n := by
  have hFirst := (digitChar_hex (k := n / 4096) (by omega)).2.2
  have hSecond := (digitChar_hex (k := n / 256 % 16) (by omega)).2.2
  have hThird := (digitChar_hex (k := n / 16 % 16) (by omega)).2.2
  have hFourth := (digitChar_hex (k := n % 16) (by omega)).2.2
  unfold hexUnit?
  simp only [hFirst, hSecond, hThird, hFourth, bind, Option.bind, pure]
  congr 1
  omega

/-- How a character is written: by a letter, by its number or as it is. -/
theorem escape_cases (c : Char) :
    (∃ e, escape c = ['\\', e] ∧ e ≠ 'u' ∧ simpleEscape? e = some c) ∨
    (c.toNat < 0x20 ∧ escape c = escapeByNumber c.toNat) ∨
    (¬c.toNat < 0x20 ∧ c ≠ '"' ∧ c ≠ '\\' ∧ escape c = [c]) := by
  unfold escape
  split
  · exact .inl ⟨'"', rfl, by decide, rfl⟩
  · exact .inl ⟨'\\', rfl, by decide, rfl⟩
  · exact .inl ⟨'b', rfl, by decide, rfl⟩
  · exact .inl ⟨'f', rfl, by decide, rfl⟩
  · exact .inl ⟨'n', rfl, by decide, rfl⟩
  · exact .inl ⟨'r', rfl, by decide, rfl⟩
  · exact .inl ⟨'t', rfl, by decide, rfl⟩
  · next hQuote hBackslash _ _ _ _ _ =>
    by_cases hControl : c.toNat < 0x20
    · rw [if_pos hControl]
      exact .inr (.inl ⟨hControl, rfl⟩)
    · rw [if_neg hControl]
      exact .inr (.inr ⟨hControl, hQuote, hBackslash, rfl⟩)

/-- Inside a string, the characters stand for the units, and the string goes on behind them. -/
structure Escapes (cs : List Char) (us : List Nat) : Prop where
  length : ∀ rest, stringLength? (cs ++ rest) = (stringLength? rest).map (· + cs.length)
  units : ∀ rest, stringUnits? (cs ++ rest) = (stringUnits? rest).map (us ++ ·)

theorem Escapes.nil : Escapes [] [] where
  length rest := by simp
  units rest := by simp

theorem Escapes.append {cs cs' : List Char} {us us' : List Nat} (h : Escapes cs us)
    (h' : Escapes cs' us') : Escapes (cs ++ cs') (us ++ us') where
  length rest := by
    rw [List.append_assoc, h.length, h'.length, Option.map_map, List.length_append]
    congr 1
    funext n
    exact (by omega : n + cs'.length + cs.length = n + (cs.length + cs'.length))
  units rest := by
    rw [List.append_assoc, h.units, h'.units, Option.map_map]
    congr 1
    funext more
    exact (List.append_assoc us us' more).symm

theorem escapeByNumber_escapes {n : Nat} (hn : n < 0x10000) : Escapes (escapeByNumber n) [n] where
  length rest := by
    have hFirst := digitChar_hex (k := n / 4096) (by omega)
    have hSecond := digitChar_hex (k := n / 256 % 16) (by omega)
    have hThird := digitChar_hex (k := n / 16 % 16) (by omega)
    have hFourth := digitChar_hex (k := n % 16) (by omega)
    simp only [escapeByNumber, List.cons_append, List.nil_append, stringLength?]
    rw [stringLength_plain hFirst.1 hFirst.2.1, stringLength_plain hSecond.1 hSecond.2.1,
      stringLength_plain hThird.1 hThird.2.1, stringLength_plain hFourth.1 hFourth.2.1]
    cases stringLength? rest <;> rfl
  units rest := by
    simp only [escapeByNumber, List.cons_append, List.nil_append, stringUnits?, hexUnit_digits hn]
    cases stringUnits? rest <;> rfl

theorem letter_escapes {c e : Char} (hLetter : e ≠ 'u') (hSimple : simpleEscape? e = some c) :
    Escapes ['\\', e] (Text.encode c) where
  length rest := rfl
  units rest := by
    rw [List.cons_append, List.cons_append, List.nil_append, stringUnits?.eq_def]
    split
    · next h => cases h
    · next h =>
      simp only [List.cons.injEq] at h
      exact absurd h.2.1 hLetter
    · next h =>
      simp only [List.cons.injEq, true_and] at h
      obtain ⟨rfl, rfl⟩ := h
      rw [hSimple]
      cases stringUnits? rest <;> rfl
    · next hOther h =>
      obtain ⟨hc, hcs⟩ := List.cons.inj h
      exact absurd hcs.symm (hOther e rest hc.symm)

theorem escape_escapes (c : Char) : Escapes (escape c) (Text.encode c) := by
  rcases escape_cases c with ⟨e, hEscape, hLetter, hSimple⟩ | ⟨hControl, hEscape⟩ |
    ⟨hControl, hQuote, hBackslash, hEscape⟩
  · rw [hEscape]
    exact letter_escapes hLetter hSimple
  · have hEncode : Text.encode c = [c.toNat] := by
      unfold Text.encode
      rw [if_pos (by omega)]
    rw [hEscape, hEncode]
    exact escapeByNumber_escapes (by omega)
  · rw [hEscape]
    exact ⟨stringLength_plain hQuote hBackslash, stringUnits_plain hBackslash hControl⟩

theorem escapeUnit_escapes {u : Nat} (hu : u < 0x10000) : Escapes (escapeUnit u) [u] := by
  unfold escapeUnit
  split
  · exact escapeByNumber_escapes hu
  · next hWhole =>
    simp only [Bool.or_eq_true, not_or, Bool.not_eq_true] at hWhole
    rw [← Text.encode_ofNat hu hWhole.1 hWhole.2]
    exact escape_escapes _

theorem escapeUnits_escapes {us : List Nat} (h : ∀ u ∈ us, u < 0x10000) :
    Escapes (escapeUnits us) us := by
  induction us using escapeUnits.induct with
  | case1 => exact .nil
  | case2 u => exact escapeUnit_escapes (h u List.mem_cons_self)
  | case3 u v rest hPair ih =>
    have hPair' := hPair
    rw [Bool.and_eq_true] at hPair'
    rw [escapeUnits, if_pos hPair]
    have hRest : ∀ w ∈ rest, w < 0x10000 := fun w hw =>
      h w (List.mem_cons_of_mem _ (List.mem_cons_of_mem _ hw))
    have hFirst := escape_escapes (Text.ofPair u v)
    rw [Text.encode_ofPair hPair'.1 hPair'.2] at hFirst
    exact hFirst.append (ih hRest)
  | case4 u v rest hAlone ih =>
    obtain ⟨hFirst, hRest⟩ := List.forall_mem_cons.mp h
    rw [escapeUnits, if_neg hAlone]
    exact (escapeUnit_escapes hFirst).append (ih hRest)

theorem digit_lt {base n : Nat} {c : Char} (h : digit? base c = some n) : n < base := by
  unfold digit? at h
  simpa using (Option.filter_eq_some_iff.mp h).2

theorem hexUnit_lt {a b c d : Char} {u : Nat} (h : hexUnit? a b c d = some u) : u < 0x10000 := by
  simp only [hexUnit?, bind, pure, Option.bind_eq_some_iff, Option.some.injEq] at h
  obtain ⟨a', ha, b', hb, c', hc, d', hd, rfl⟩ := h
  have hFirst := digit_lt ha
  have hSecond := digit_lt hb
  have hThird := digit_lt hc
  have hFourth := digit_lt hd
  omega

theorem stringUnits_lt {cs : List Char} {us : List Nat} (h : stringUnits? cs = some us) :
    ∀ u ∈ us, u < 0x10000 := by
  induction cs using stringUnits?.induct generalizing us with
  | case1 =>
    cases h
    exact List.forall_mem_nil _
  | case2 a b c d cs ih =>
    simp only [stringUnits?, bind, pure, Option.bind_eq_some_iff, Option.some.injEq] at h
    obtain ⟨u, hUnit, rest, hRest, rfl⟩ := h
    exact List.forall_mem_cons.mpr ⟨hexUnit_lt hUnit, ih hRest⟩
  | case3 e cs hOther ih =>
    rw [stringUnits?] at h
    · simp only [bind, pure, Option.bind_eq_some_iff, Option.some.injEq] at h
      obtain ⟨c, -, rest, hRest, rfl⟩ := h
      exact List.forall_mem_append.mpr ⟨Text.encode_lt c, ih hRest⟩
    · exact hOther
  | case4 c cs hNumber hLetter hBad =>
    rw [stringUnits?, if_pos hBad] at h
    · cases h
    · exact hNumber
    · exact hLetter
  | case5 c cs hNumber hLetter hGood ih =>
    rw [stringUnits?, if_neg hGood] at h
    · simp only [bind, pure, Option.bind_eq_some_iff, Option.some.injEq] at h
      obtain ⟨rest, hRest, rfl⟩ := h
      exact List.forall_mem_append.mpr ⟨Text.encode_lt c, ih hRest⟩
    · exact hNumber
    · exact hLetter

/-- A string that is read keeps its code units, halves of pairs among them. -/
theorem readString_iff {inside : List Char} {w : Wide} :
    readString? inside = some (.string w) ↔ stringUnits? inside = some w.units := by
  rw [readString?, Option.map_eq_some_iff]
  constructor
  · rintro ⟨us, hUnits, ⟨⟩⟩
    rw [Wide.units_ofUnits (stringUnits_lt hUnits), hUnits]
  · intro hUnits
    exact ⟨_, hUnits, by rw [w.ofUnits_units]⟩

example : readString? ['\\', 'u', 'd', '8', '0', '0'] =
    some (.string (.broken [0xD800] (by decide))) := by rfl

theorem readString_escaped (w : Wide) : readString? (escapeUnits w.units) = some (.string w) := by
  have hUnits := (escapeUnits_escapes w.units_lt).units []
  rw [List.append_nil, stringUnits?, Option.map_some, List.append_nil] at hUnits
  exact readString_iff.mpr hUnits

theorem scalarAt_string (w : Wide) (rest : List Char) :
    scalarAt? '"' (escapeUnits w.units ++ '"' :: rest) =
      some (.value (.string w), (escapeUnits w.units).length + 1) := by
  have hLength : stringLength? (escapeUnits w.units ++ '"' :: rest) =
      some ((escapeUnits w.units).length + 1) := by
    rw [(escapeUnits_escapes w.units_lt).length, stringLength?, Option.map_some, Nat.add_comm]
  unfold scalarAt?
  rw [if_pos rfl, hLength]
  simp only [bind, Option.bind, Nat.add_sub_cancel, List.take_left', readString_escaped, pure]

/-! ## Numbers -/

/-- No number and no word goes on here. -/
def Delimited (rest : List Char) : Prop :=
  ∀ c, rest.head? = some c → isNumberChar c = false ∧ c.isAlpha = false

theorem isNumberChar_of_isDigit {c : Char} (h : isDigit c = true) : isNumberChar c = true := by
  simp [isNumberChar, h]

theorem isNumberChar_chars {n : Numeral} (hStrict : n.Strict) :
    ∀ c ∈ n.chars, isNumberChar c = true := by
  have hFraction : ∀ c ∈ n.fractionText, isNumberChar c = true := by
    unfold Numeral.fractionText
    split
    · simp
    · intro c hc
      rcases List.mem_cons.mp hc with rfl | hc
      · decide
      · exact isNumberChar_of_isDigit (hStrict.fraction c hc)
  have hPower : ∀ c ∈ n.powerText, isNumberChar c = true := by
    unfold Numeral.powerText
    split
    · next e _ =>
      unfold Decimal.exponentText
      intro c hc
      rcases List.mem_cons.mp hc with rfl | hc
      · decide
      · rcases List.mem_cons.mp hc with rfl | hc
        · split <;> decide
        · exact isNumberChar_of_isDigit (Decimal.isDigit_toDigits hc)
    · simp
  have hBody : ∀ c ∈ n.body, isNumberChar c = true := by
    intro c hc
    rcases List.mem_append.mp hc with hc | hc
    · exact isNumberChar_of_isDigit (hStrict.whole c hc)
    · rcases List.mem_append.mp hc with hc | hc
      · exact hFraction c hc
      · exact hPower c hc
  unfold Numeral.chars
  split
  · intro c hc
    rcases List.mem_cons.mp hc with rfl | hc
    · decide
    · exact hBody c hc
  · exact hBody

theorem isStrict_minus {cs : List Char} (h : cs.head? ≠ some '-') :
    isStrict ('-' :: cs) = isStrict cs := by
  unfold isStrict
  split
  · next hMinus => cases hMinus; split <;> simp_all
  · next hOther => exact absurd rfl (hOther cs)

theorem isStrict_chars {n : Numeral} (hStrict : n.Strict) : isStrict n.chars = true := by
  have hUnsigned : isStrict n.chars = isStrict ('-' :: n.body) := by
    unfold Numeral.chars
    cases n.negative with
    | true => rfl
    | false =>
      obtain ⟨c, rest, hBody, hDigit⟩ := Numeral.head_body hStrict
      refine (isStrict_minus ?_).symm
      rw [hBody]
      rintro h
      cases h
      exact absurd hDigit (by decide)
  have hDigits := Numeral.takeDigits_body hStrict
  simp only [Decimal.takeDigits, Prod.mk.injEq] at hDigits
  rw [hUnsigned]
  simp only [isStrict, hDigits]
  simp [hStrict.nonempty]
  refine ⟨hStrict.noZero, ?_⟩
  unfold Numeral.fractionText
  cases hCases : n.fraction with
  | nil =>
    have hHead := n.head_powerText
    rw [if_pos rfl, List.nil_append]
    split
    · next h => exact absurd (hHead '.' (by rw [h]; rfl)) (by decide)
    · next h => exact absurd (hHead '.' (by rw [h]; rfl)) (by decide)
    · rfl
  | cons d rest =>
    rw [if_neg (by simp)]
    exact hStrict.fraction d (by simp [hCases])

theorem readNumber_chars {n : Numeral} (hStrict : n.Strict) :
    readNumber? n.chars = some (.number n.value) := by
  rw [readNumber?, if_pos (isStrict_chars hStrict), Numeral.ofNumeral_chars hStrict,
    Option.map_some]

theorem scalarAt_number {n : Numeral} {c : Char} {cs rest : List Char} (hStrict : n.Strict)
    (hChars : n.chars = c :: cs) (hRest : Delimited rest) :
    scalarAt? c (cs ++ rest) = some (.value (.number n.value), cs.length) := by
  have hAll := isNumberChar_chars hStrict
  rw [hChars] at hAll
  have hFirst : isNumberChar c = true := hAll c List.mem_cons_self
  have hQuote : c ≠ '"' := by
    rintro rfl
    exact absurd hFirst (by decide)
  have hRun : (cs ++ rest).takeWhile isNumberChar = cs :=
    takeWhile_run (fun x hx => hAll x (List.mem_cons_of_mem _ hx)) fun x hx => (hRest x hx).1
  have hRead : readNumber? (c :: cs) = some (.number n.value) := hChars ▸ readNumber_chars hStrict
  unfold scalarAt?
  rw [if_neg hQuote, if_pos hFirst, hRun]
  simp only [hRead, bind, Option.bind, pure]

theorem scalarAt_word {c : Char} {cs rest : List Char} {j : Json}
    (hRead : readWord? (c :: cs) = some j) (hAlpha : cs.all Char.isAlpha = true)
    (hQuote : c ≠ '"') (hNumber : isNumberChar c = false) (hRest : Delimited rest) :
    scalarAt? c (cs ++ rest) = some (.value j, cs.length) := by
  have hRun : (cs ++ rest).takeWhile Char.isAlpha = cs :=
    takeWhile_run (List.all_eq_true.mp hAlpha) fun x hx => (hRest x hx).2
  unfold scalarAt?
  rw [if_neg hQuote, if_neg (by simp [hNumber]), hRun]
  simp only [hRead, bind, Option.bind, pure]

/-! ## Cutting a text -/

section

variable {done : List Lexeme} {rest : List Char}

theorem lexemesFrom_space {c : Char} (hSpace : isSpace c = true) :
    lexemesFrom? done (c :: rest) = lexemesFrom? done rest := by
  rw [lexemesFrom?, if_pos hSpace]

theorem lexemesFrom_mark {c : Char} {m : Lexeme} (hSpace : isSpace c = false)
    (hMark : mark? c = some m) :
    lexemesFrom? done (c :: rest) = lexemesFrom? (m :: done) rest := by
  rw [lexemesFrom?, if_neg (by simp [hSpace]), hMark]

theorem lexemesFrom_scalar {c : Char} (cs : List Char) {l : Lexeme} (hSpace : isSpace c = false)
    (hMark : mark? c = none) (hScalar : scalarAt? c (cs ++ rest) = some (l, cs.length)) :
    lexemesFrom? done (c :: (cs ++ rest)) = lexemesFrom? (l :: done) rest := by
  rw [lexemesFrom?, if_neg (by simp [hSpace]), hMark, hScalar]
  dsimp only
  rw [List.drop_left]

theorem lexemesFrom_newline (level : Nat) :
    lexemesFrom? done (newline level rest) = lexemesFrom? done rest := by
  have hBlanks : ∀ k,
      lexemesFrom? done (List.replicate k ' ' ++ rest) = lexemesFrom? done rest := by
    intro k
    induction k with
    | zero => rfl
    | succ k ih => rw [List.replicate_succ, List.cons_append, lexemesFrom_space rfl, ih]
  rw [newline, lexemesFrom_space rfl, hBlanks]

theorem lexemesFrom_quoted (w : Wide) :
    lexemesFrom? done (quoted w rest) = lexemesFrom? (.value (.string w) :: done) rest := by
  have hScalar := scalarAt_string w rest
  have hText : quoted w rest = '"' :: ((escapeUnits w.units ++ ['"']) ++ rest) := by
    simp [quoted]
  rw [hText]
  refine lexemesFrom_scalar _ rfl rfl ?_
  simpa using hScalar

theorem not_mark_of_isNumberChar {c : Char} (h : isNumberChar c = true) :
    isSpace c = false ∧ mark? c = none := by
  constructor
  · cases hSpace : isSpace c with
    | false => rfl
    | true =>
      simp only [isSpace, Bool.or_eq_true, beq_iff_eq] at hSpace
      rcases hSpace with ((rfl | rfl) | rfl) | rfl <;> exact absurd h (by decide)
  · unfold mark?
    split
    · exact absurd h (by decide)
    · exact absurd h (by decide)
    · exact absurd h (by decide)
    · exact absurd h (by decide)
    · exact absurd h (by decide)
    · exact absurd h (by decide)
    · rfl

theorem lexemesFrom_number {n : Numeral} (hStrict : n.Strict) (hRest : Delimited rest) :
    lexemesFrom? done (n.chars ++ rest) = lexemesFrom? (.value (.number n.value) :: done) rest := by
  cases hChars : n.chars with
  | nil =>
    obtain ⟨c, cs, hBody, -⟩ := Numeral.head_body hStrict
    unfold Numeral.chars at hChars
    split at hChars
    · cases hChars
    · rw [hBody] at hChars
      cases hChars
  | cons c cs =>
    have hFirst : isNumberChar c = true :=
      isNumberChar_chars hStrict c (by rw [hChars]; exact List.mem_cons_self)
    obtain ⟨hSpace, hMark⟩ := not_mark_of_isNumberChar hFirst
    exact lexemesFrom_scalar _ hSpace hMark (scalarAt_number hStrict hChars hRest)

end

/-! ## Canonical values -/

/-- The values that reading can give: numbers without factors of ten and other than negative
zero, objects with their members in the order in which objects list them. -/
inductive Canonical : Json → Prop where
  | null : Canonical .null
  | bool (b : Bool) : Canonical (.bool b)
  | string (w : Wide) : Canonical (.string w)
  | number {d : Decimal} (normal : d.Normal) (sign : d.coefficient = 0 → d.negative = false) :
      Canonical (.number d)
  | array {items : List Json} (each : ∀ j ∈ items, Canonical j) : Canonical (.array items)
  | object {members : List (Wide × Json)} (arranged : arrange members = members)
      (each : ∀ m ∈ members, Canonical m.2) : Canonical (.object members)

mutual

/-- The lexemes of a value. -/
def spelled : Json → List Lexeme
  | .array items => .openArray :: (spelledItems items ++ [.closeArray])
  | .object members => .openObject :: (spelledMembers members ++ [.closeObject])
  | j => [.value j]

/-- The lexemes of the items of an array. -/
def spelledItems : List Json → List Lexeme
  | [] => []
  | [j] => spelled j
  | j :: items => spelled j ++ .comma :: spelledItems items

/-- The lexemes of the members of an object. -/
def spelledMembers : List (Wide × Json) → List Lexeme
  | [] => []
  | [(key, j)] => .value (.string key) :: .colon :: spelled j
  | (key, j) :: members =>
    .value (.string key) :: .colon :: (spelled j ++ .comma :: spelledMembers members)

end

/-! ### The text of a value is cut into its lexemes -/

/-- Wherever the text of the value stands, it is cut into the lexemes of the value. -/
def Cuts (j : Json) : Prop :=
  ∀ level rest done, Delimited rest →
    lexemesFrom? done (prettyOnto level j rest) = lexemesFrom? (j.spelled.reverse ++ done) rest

theorem delimited_nil : Delimited [] := by
  intro c hc
  cases hc

theorem delimited_cons {c : Char} {rest : List Char} (hNumber : isNumberChar c = false)
    (hAlpha : c.isAlpha = false) : Delimited (c :: rest) := by
  intro x hx
  cases hx
  exact ⟨hNumber, hAlpha⟩

theorem delimited_newline (level : Nat) (rest : List Char) : Delimited (newline level rest) :=
  delimited_cons (by decide) (by decide)

theorem cut_items {items : List Json} (hEach : ∀ j ∈ items, j.Cuts) (level : Nat)
    (rest : List Char) (done : List Lexeme) (hRest : Delimited rest) :
    lexemesFrom? done (prettyItems level items rest) =
      lexemesFrom? ((spelledItems items).reverse ++ done) rest := by
  induction items generalizing done with
  | nil => rfl
  | cons j items ih =>
    obtain ⟨hFirst, hOthers⟩ := List.forall_mem_cons.mp hEach
    cases items with
    | nil =>
      rw [prettyItems, lexemesFrom_newline, hFirst level rest done hRest]
      rfl
    | cons k items =>
      have hComma : Delimited (',' :: prettyItems level (k :: items) rest) :=
        delimited_cons (by decide) (by decide)
      rw [prettyItems, lexemesFrom_newline, hFirst level _ done hComma,
        lexemesFrom_mark rfl rfl, ih hOthers]
      · simp [spelledItems]
      · simp

theorem cut_members {members : List (Wide × Json)} (hEach : ∀ m ∈ members, m.2.Cuts)
    (level : Nat) (rest : List Char) (done : List Lexeme) (hRest : Delimited rest) :
    lexemesFrom? done (prettyMembers level members rest) =
      lexemesFrom? ((spelledMembers members).reverse ++ done) rest := by
  induction members generalizing done with
  | nil => rfl
  | cons m members ih =>
    obtain ⟨key, j⟩ := m
    obtain ⟨hFirst, hOthers⟩ := List.forall_mem_cons.mp hEach
    cases members with
    | nil =>
      rw [prettyMembers, lexemesFrom_newline, lexemesFrom_quoted, lexemesFrom_mark rfl rfl,
        lexemesFrom_space rfl, hFirst level rest _ hRest]
      simp [spelledMembers]
    | cons n members =>
      have hComma : Delimited (',' :: prettyMembers level (n :: members) rest) :=
        delimited_cons (by decide) (by decide)
      rw [prettyMembers, lexemesFrom_newline, lexemesFrom_quoted, lexemesFrom_mark rfl rfl,
        lexemesFrom_space rfl, hFirst level _ _ hComma, lexemesFrom_mark rfl rfl, ih hOthers]
      · simp [spelledMembers]
      · simp

theorem Canonical.cuts {j : Json} (hj : j.Canonical) : j.Cuts := by
  induction hj with
  | null =>
    intro level rest done hRest
    exact lexemesFrom_scalar ['u', 'l', 'l'] rfl rfl
      (scalarAt_word rfl (by decide) (by decide) rfl hRest)
  | bool b =>
    intro level rest done hRest
    cases b with
    | true =>
      exact lexemesFrom_scalar ['r', 'u', 'e'] rfl rfl
        (scalarAt_word rfl (by decide) (by decide) rfl hRest)
    | false =>
      exact lexemesFrom_scalar ['a', 'l', 's', 'e'] rfl rfl
        (scalarAt_word rfl (by decide) (by decide) rfl hRest)
  | string w =>
    intro level rest done hRest
    exact lexemesFrom_quoted w
  | @number d normal sign =>
    intro level rest done hRest
    obtain ⟨n, hStrict, hValue, hChars⟩ := Decimal.exists_numeral normal sign
    have hText : prettyOnto level (.number d) rest = n.chars ++ rest := by
      rw [← hChars, prettyOnto]
      · rw [scalar, Decimal.normalize_of_normal normal]
      all_goals simp
    rw [hText, lexemesFrom_number hStrict hRest, hValue]
    rfl
  | @array items each ih =>
    intro level rest done hRest
    cases items with
    | nil =>
      rw [prettyOnto, scalar, lexemesFrom_mark rfl rfl, lexemesFrom_mark rfl rfl]
      rfl
    | cons j items =>
      rw [prettyOnto, lexemesFrom_mark rfl rfl, cut_items ih _ _ _ (delimited_newline _ _),
        lexemesFrom_newline, lexemesFrom_mark rfl rfl]
      · simp [spelled]
      · simp
  | @object members arranged each ih =>
    intro level rest done hRest
    cases members with
    | nil =>
      rw [prettyOnto, scalar, lexemesFrom_mark rfl rfl, lexemesFrom_mark rfl rfl]
      rfl
    | cons m members =>
      rw [prettyOnto, lexemesFrom_mark rfl rfl, cut_members ih _ _ _ (delimited_newline _ _),
        lexemesFrom_newline, lexemesFrom_mark rfl rfl]
      · simp [spelled]
      · simp

/-! ### The lexemes of a value are read as the value -/

namespace Reader

/-- Wherever a value is due, taking the lexemes of `j` supplies `j`. -/
def Takes (j : Json) : Prop :=
  ∀ frames ls, (value frames).run? (j.spelled ++ ls) = (supply j frames).run? ls

theorem run_cons {r r' : Reader} {l : Lexeme} {ls : List Lexeme} (h : r.step? l = some r') :
    r.run? (l :: ls) = r'.run? ls := by
  rw [run?, h]

/-- The first lexeme of a value opens it or is all of it. -/
theorem head_spelled (j : Json) :
    ∃ l ls, j.spelled = l :: ls ∧ (l = .openArray ∨ l = .openObject ∨ ∃ k, l = .value k) := by
  cases j with
  | array items => exact ⟨_, _, rfl, .inl rfl⟩
  | object members => exact ⟨_, _, rfl, .inr (.inl rfl)⟩
  | null | bool | number | string => exact ⟨_, _, rfl, .inr (.inr ⟨_, rfl⟩)⟩

/-- Where an item may come first, it is read like any other. -/
theorem run_firstItem (j : Json) (frames : List Frame) (ls : List Lexeme) :
    (firstItem frames).run? (j.spelled ++ ls) =
      (value (.array [] :: frames)).run? (j.spelled ++ ls) := by
  obtain ⟨l, ls', hSpelled, hFirst⟩ := head_spelled j
  rw [hSpelled, List.cons_append]
  rcases hFirst with rfl | rfl | ⟨k, rfl⟩ <;> rfl

theorem take_items {items : List Json} (hEach : ∀ j ∈ items, Takes j) (hSome : items ≠ [])
    (before : List Json) (frames : List Frame) (ls : List Lexeme) :
    (value (.array before :: frames)).run? (spelledItems items ++ .closeArray :: ls) =
      (supply (.array (before.reverse ++ items)) frames).run? ls := by
  induction items generalizing before with
  | nil => exact absurd rfl hSome
  | cons j items ih =>
    obtain ⟨hFirst, hOthers⟩ := List.forall_mem_cons.mp hEach
    cases items with
    | nil =>
      rw [spelledItems, hFirst]
      rw [supply, run_cons (by rfl), List.reverse_cons]
    | cons k items =>
      have hSplit : spelledItems (j :: k :: items) ++ .closeArray :: ls =
          j.spelled ++ .comma :: (spelledItems (k :: items) ++ .closeArray :: ls) := by
        simp [spelledItems]
      rw [hSplit, hFirst, supply, run_cons (by rfl), ih hOthers (by simp)]
      simp

theorem take_members {members : List (Wide × Json)} (hEach : ∀ m ∈ members, Takes m.2)
    (hSome : members ≠ []) (before : List (Wide × Json)) (frames : List Frame)
    (ls : List Lexeme) :
    (nextKey before frames).run? (spelledMembers members ++ .closeObject :: ls) =
      (supply (ofMembers (before.reverse ++ members)) frames).run? ls := by
  induction members generalizing before with
  | nil => exact absurd rfl hSome
  | cons m members ih =>
    obtain ⟨key, j⟩ := m
    obtain ⟨hFirst, hOthers⟩ := List.forall_mem_cons.mp hEach
    cases members with
    | nil =>
      have hSplit : spelledMembers [(key, j)] ++ .closeObject :: ls =
          .value (.string key) :: .colon :: (j.spelled ++ .closeObject :: ls) := by
        simp [spelledMembers]
      rw [hSplit, run_cons (by rfl), run_cons (by rfl), hFirst, supply, run_cons (by rfl),
        List.reverse_cons]
    | cons n members =>
      have hSplit : spelledMembers ((key, j) :: n :: members) ++ .closeObject :: ls =
          .value (.string key) :: .colon ::
            (j.spelled ++ .comma :: (spelledMembers (n :: members) ++ .closeObject :: ls)) := by
        simp [spelledMembers]
      rw [hSplit, run_cons (by rfl), run_cons (by rfl), hFirst, supply, run_cons (by rfl),
        ih hOthers (by simp)]
      simp

end Reader

theorem Canonical.takes {j : Json} (hj : j.Canonical) : Reader.Takes j := by
  induction hj with
  | null | bool | string | number =>
    intro frames ls
    exact Reader.run_cons rfl
  | @array items each ih =>
    intro frames ls
    have hSplit : (Json.array items).spelled ++ ls =
        .openArray :: (spelledItems items ++ .closeArray :: ls) := by
      simp [spelled]
    rw [hSplit, Reader.run_cons (by rfl)]
    cases items with
    | nil => exact Reader.run_cons rfl
    | cons j items =>
      have hFirst : ∃ tail, spelledItems (j :: items) ++ .closeArray :: ls = j.spelled ++ tail := by
        cases items with
        | nil => exact ⟨_, rfl⟩
        | cons k items => exact ⟨_, by simp only [spelledItems, List.append_assoc]; rfl⟩
      obtain ⟨tail, hTail⟩ := hFirst
      rw [hTail, Reader.run_firstItem, ← hTail, Reader.take_items ih (by simp)]
      rfl
  | @object members arranged each ih =>
    intro frames ls
    have hSplit : (Json.object members).spelled ++ ls =
        .openObject :: (spelledMembers members ++ .closeObject :: ls) := by
      simp [spelled]
    have hSelf : ofMembers members = .object members := by rw [ofMembers, arranged]
    rw [hSplit, Reader.run_cons (by rfl)]
    cases members with
    | nil => exact Reader.run_cons rfl
    | cons m members =>
      have hFirst :
          (Reader.firstKey frames).run? (spelledMembers (m :: members) ++ .closeObject :: ls) =
            (Reader.nextKey [] frames).run?
              (spelledMembers (m :: members) ++ .closeObject :: ls) := by
        obtain ⟨key, j⟩ := m
        cases members <;> rfl
      rw [hFirst, Reader.take_members ih (by simp)]
      rw [List.reverse_nil, List.nil_append, hSelf]

/-- A canonical value is read back from its text. -/
theorem parse_pretty {j : Json} (hj : j.Canonical) : parse? j.pretty = some j := by
  have hCut : lexemes? j.pretty = some j.spelled := by
    rw [lexemes?, pretty, String.toList_ofList, hj.cuts 0 [] [] delimited_nil]
    simp [lexemesFrom?]
  have hRun : (Reader.value []).run? j.spelled = some (.done j) := by
    simpa [Reader.supply, Reader.run?] using hj.takes [] []
  unfold parse?
  rw [hCut, Option.bind_some, hRun]

end Json

end Tern
