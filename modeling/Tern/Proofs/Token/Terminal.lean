import Tern.Grammar.Expression

/-!
# Terminals

What a token contributes to a tree, spans aside: its kind, and what the token stands for if it is
a name or a literal. The grammar is about rows of terminals.

* `Token.terminal`: the terminal of a token;
* `TokenStream.terminals`: the terminals of a stream, up to the first end of input.
-/

namespace Tern

/-- What a token contributes to a tree. -/
inductive Terminal where
  | mark (kind : TokenKind)
  | name (word : String)
  | number (value : Float)
  | text (value : String)

/-- The kind of the tokens of a terminal. -/
def Terminal.kind : Terminal → TokenKind
  | mark kind => kind
  | name _ => .identifier
  | number _ => .number
  | text _ => .string

/-- The terminal of a token. -/
def Token.terminal (t : Token) : Terminal :=
  match t.kind with
  | .identifier => .name t.lexeme
  | .number => .number (Grammar.numberValue t)
  | .string => .text (Grammar.stringValue t)
  | kind => .mark kind

@[simp] theorem Token.kind_terminal (t : Token) : t.terminal.kind = t.kind := by
  unfold terminal
  split <;> simp [Terminal.kind, *]

namespace Terminal

/-- The kinds of the terminals that say no more than their kind, the end of input aside. -/
def isMark (kind : TokenKind) : Bool :=
  kind != .identifier && kind != .number && kind != .string && kind != .endOfInput

theorem eq_mark {t : Terminal} {kind : TokenKind} (hMark : isMark kind = true)
    (h : t.kind = kind) : t = .mark kind := by
  subst h
  cases t with
  | mark => rfl
  | name | number | text => cases hMark

theorem ne_end_of_isMark {kind : TokenKind} (hMark : isMark kind = true) :
    kind ≠ .endOfInput := by
  rintro rfl
  cases hMark

/-- The first of some terminals, or else what follows them. -/
def first (ts : List Terminal) (next : Terminal) : Terminal := ts.headD next

@[simp] theorem first_nil (next : Terminal) : first [] next = next := rfl

@[simp] theorem first_cons (t : Terminal) (ts : List Terminal) (next : Terminal) :
    first (t :: ts) next = t := rfl

@[simp] theorem first_append (xs ys : List Terminal) (next : Terminal) :
    first (xs ++ ys) next = first xs (first ys next) := by
  cases xs <;> rfl

end Terminal

theorem Token.terminal_name {t : Token} (h : t.kind = .identifier) :
    t.terminal = .name t.lexeme := by
  simp [terminal, h]

theorem Token.terminal_number {t : Token} (h : t.kind = .number) :
    t.terminal = .number (Grammar.numberValue t) := by
  simp [terminal, h]

theorem Token.terminal_string {t : Token} (h : t.kind = .string) :
    t.terminal = .text (Grammar.stringValue t) := by
  simp [terminal, h]

/-- The terminals of tokens up to the first end of input. -/
def Token.terminals (ts : List Token) : List Terminal :=
  (ts.takeWhile (·.kind ≠ .endOfInput)).map terminal

@[simp] theorem Token.terminals_nil : terminals [] = [] := rfl

theorem Token.terminals_cons {t : Token} {ts : List Token} (h : t.kind ≠ .endOfInput) :
    terminals (t :: ts) = t.terminal :: terminals ts := by
  simp [terminals, h]

theorem Token.terminals_end {t : Token} {ts : List Token} (h : t.kind = .endOfInput) :
    terminals (t :: ts) = [] := by
  simp [terminals, h]

theorem Token.length_terminals_le (ts : List Token) : (terminals ts).length ≤ ts.length := by
  rw [terminals, List.length_map]
  exact (List.takeWhile_sublist _).length_le

/-- Before the end of input there is no end of input. -/
theorem Token.kind_ne_of_mem_terminals {ts : List Token} {t : Terminal} (ht : t ∈ terminals ts) :
    t.kind ≠ .endOfInput := by
  obtain ⟨u, hu, rfl⟩ := List.mem_map.mp ht
  rw [kind_terminal]
  simpa using List.all_eq_true.mp List.all_takeWhile u hu

/-- The terminals of a stream up to the first end of input. -/
def TokenStream.terminals (s : TokenStream) : List Terminal := Token.terminals s.tokens

end Tern
