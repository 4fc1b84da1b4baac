import Mathlib.Tactic

/-!
# SQLite's tokens and the first statement of a text

How SQLite cuts a text into tokens, and what kind of statement the first one is.  A quoted text ends
at its quote, doubled quotes apart; an identifier in square brackets ends at the first closing
bracket; a variable may carry a text in parentheses; comments and white space separate.  A text ends
at a NUL.

* `lexeme`: the next token; `tokenize`: all tokens of a text;
* `firstStatement`: the tokens of the first statement, if none of them is illegal;
* `mainVerb`: what a statement that starts with `WITH` does after its common tables;
* `writes`: the statement changes the database.
-/

namespace SqlTokens

inductive Kind
  | space
  | comment
  | semi
  | lp
  | rp
  | comma
  | dot
  | eq
  | word
  | quoted
  | bracket
  | variable
  | number
  | blob
  | operator
  | illegal
  deriving DecidableEq

structure Lexeme where
  kind : Kind
  text : List Char
  deriving DecidableEq

/-- White space inside a run of it. -/
def isSpace (c : Char) : Bool := (9 ≤ c.toNat && c.toNat ≤ 13) || c = ' '

/-- White space that a run of it may start with: all but the vertical tab. -/
def isSpaceStart (c : Char) : Bool := isSpace c && c.toNat ≠ 11

/-- The characters of identifiers; every character that is not ASCII is one. -/
def isIdChar (c : Char) : Bool := c.isAlphanum || c = '_' || c = '$' || 128 ≤ c.toNat

def isQuote (c : Char) : Bool := c = '\'' || c = '"' || c = '`'

def isDigitOrSeparator (c : Char) : Bool := c.isDigit || c = '_'

def isHexDigit (c : Char) : Bool :=
  c.isDigit || ('a' ≤ c && c ≤ 'f') || ('A' ≤ c && c ≤ 'F')

/-- The characters that satisfy a test, up to the first that does not, and the rest. -/
def cut (p : Char → Bool) (cs : List Char) : List Char × List Char :=
  (cs.takeWhile p, cs.dropWhile p)

/-- What is left of a block comment after `/*`, and the text after it. -/
def blockComment (previous : Char) : List Char → List Char × List Char
  | [] => ([], [])
  | c :: cs =>
      if previous = '*' ∧ c = '/' then ([c], cs)
      else (c :: (blockComment c cs).1, (blockComment c cs).2)

/-- The rest of a quoted text, up to the quote that is not doubled, and the text after it. -/
def closeQuote (d : Char) : List Char → Option (List Char × List Char)
  | [] => none
  | [c] => if c = d then some ([c], []) else none
  | c :: e :: cs =>
      if c = d then
        if e = d then (closeQuote d cs).map fun p => (c :: e :: p.1, p.2) else some ([c], e :: cs)
      else (closeQuote d (e :: cs)).map fun p => (c :: p.1, p.2)

/-- The rest of a variable: whether it is one, its text and the text after it; `seen`: it has a
character of its name. -/
def variableTail (seen : Bool) : List Char → Bool × List Char × List Char
  | [] => (seen, [], [])
  | ':' :: ':' :: cs =>
      ((variableTail seen cs).1, ':' :: ':' :: (variableTail seen cs).2.1,
        (variableTail seen cs).2.2)
  | c :: cs =>
      if isIdChar c then
        ((variableTail true cs).1, c :: (variableTail true cs).2.1, (variableTail true cs).2.2)
      else if c = '(' ∧ seen then
        match cut (fun e => !isSpace e && e ≠ ')') cs with
        | (body, ')' :: rest) => (true, c :: (body ++ [')']), rest)
        | (body, rest) => (false, c :: body, rest)
      else (seen, [], c :: cs)

def fraction : List Char → List Char × List Char
  | '.' :: cs => ('.' :: (cut isDigitOrSeparator cs).1, (cut isDigitOrSeparator cs).2)
  | cs => ([], cs)

def exponent : List Char → List Char × List Char
  | e :: s :: cs =>
      if (e = 'e' ∨ e = 'E') ∧ (s.isDigit ∨ (s = '+' ∨ s = '-') ∧ cs.head?.any Char.isDigit) then
        (e :: s :: (cut isDigitOrSeparator cs).1, (cut isDigitOrSeparator cs).2)
      else ([], e :: s :: cs)
  | cs => ([], cs)

/-- The digits of a number and the text after them. -/
def digits : List Char → List Char × List Char
  | '0' :: x :: h :: cs =>
      if (x = 'x' ∨ x = 'X') ∧ isHexDigit h then
        ('0' :: x :: (cut (fun c => isHexDigit c || c = '_') (h :: cs)).1,
          (cut (fun c => isHexDigit c || c = '_') (h :: cs)).2)
      else decimal ('0' :: x :: h :: cs)
  | cs => decimal cs
where
  decimal (cs : List Char) : List Char × List Char :=
    let whole := cut isDigitOrSeparator cs
    let part := fraction whole.2
    let power := exponent part.2
    (whole.1 ++ part.1 ++ power.1, power.2)

/-- A number; characters of identifiers right after it make it illegal. -/
def number (cs : List Char) : Lexeme × List Char :=
  let whole := digits cs
  let bad := cut isIdChar whole.2
  (⟨if bad.1 = [] then .number else .illegal, whole.1 ++ bad.1⟩, bad.2)

/-- A token that starts with a minus; a comment comes with the white space that ends it. -/
def minus : List Char → Lexeme × List Char
  | '-' :: cs =>
      let line := cut (· ≠ '\n') cs
      let spaces := cut isSpace line.2
      (⟨.comment, '-' :: '-' :: (line.1 ++ spaces.1)⟩, spaces.2)
  | '>' :: '>' :: cs => (⟨.operator, ['-', '>', '>']⟩, cs)
  | '>' :: cs => (⟨.operator, ['-', '>']⟩, cs)
  | cs => (⟨.operator, ['-']⟩, cs)

/-- A token that starts with a slash. -/
def slash : List Char → Lexeme × List Char
  | '*' :: c :: cs =>
      (⟨.comment, '/' :: '*' :: (blockComment '\x00' (c :: cs)).1⟩,
        (blockComment '\x00' (c :: cs)).2)
  | cs => (⟨.operator, ['/']⟩, cs)

def quoted (d : Char) (cs : List Char) : Lexeme × List Char :=
  match closeQuote d cs with
  | some (text, rest) => (⟨.quoted, d :: text⟩, rest)
  | none => (⟨.illegal, d :: cs⟩, [])

/-- An identifier in square brackets. -/
def bracket (cs : List Char) : Lexeme × List Char :=
  match cut (· ≠ ']') cs with
  | (body, c :: rest) => (⟨.bracket, '[' :: (body ++ [c])⟩, rest)
  | (body, []) => (⟨.illegal, '[' :: body⟩, [])

/-- A blob, after `x` and its quote. -/
def blob (x : Char) (cs : List Char) : Lexeme × List Char :=
  match cut (· ≠ '\'') cs with
  | (body, c :: rest) =>
      (⟨if body.all isHexDigit ∧ body.length % 2 = 0 then .blob else .illegal,
        x :: '\'' :: (body ++ [c])⟩, rest)
  | (body, []) => (⟨.illegal, x :: '\'' :: body⟩, [])

/-- The other tokens, of one character or two. -/
def operator (c : Char) (cs : List Char) : Lexeme × List Char :=
  match c, cs with
  | '=', '=' :: rest => (⟨.eq, ['=', '=']⟩, rest)
  | '<', '=' :: rest => (⟨.operator, ['<', '=']⟩, rest)
  | '<', '>' :: rest => (⟨.operator, ['<', '>']⟩, rest)
  | '<', '<' :: rest => (⟨.operator, ['<', '<']⟩, rest)
  | '>', '=' :: rest => (⟨.operator, ['>', '=']⟩, rest)
  | '>', '>' :: rest => (⟨.operator, ['>', '>']⟩, rest)
  | '!', '=' :: rest => (⟨.operator, ['!', '=']⟩, rest)
  | '|', '|' :: rest => (⟨.operator, ['|', '|']⟩, rest)
  | c, rest => (⟨single c, [c]⟩, rest)
where
  single (c : Char) : Kind :=
    if c = ';' then .semi else if c = '(' then .lp else if c = ')' then .rp
    else if c = ',' then .comma else if c = '.' then .dot else if c = '=' then .eq
    else if c ∈ ['+', '*', '%', '<', '>', '|', '&', '~'] then .operator else .illegal

/-- The next token of a text that is not at its end. -/
def lexeme (c : Char) (cs : List Char) : Lexeme × List Char :=
  if isSpaceStart c then (⟨.space, c :: (cut isSpace cs).1⟩, (cut isSpace cs).2)
  else if c = '\uFEFF' then (⟨.space, [c]⟩, cs)
  else if c = '-' then minus cs
  else if c = '/' then slash cs
  else if isQuote c then quoted c cs
  else if c = '[' then bracket cs
  else if c = '?' then (⟨.variable, c :: (cut Char.isDigit cs).1⟩, (cut Char.isDigit cs).2)
  else if c ∈ ['$', '@', '#', ':'] then
    let tail := variableTail false cs
    (⟨if tail.1 then .variable else .illegal, c :: tail.2.1⟩, tail.2.2)
  else if c.isDigit ∨ c = '.' ∧ cs.head?.any Char.isDigit then number (c :: cs)
  else if (c = 'x' ∨ c = 'X') ∧ cs.head? = some '\'' then blob c cs.tail
  else if isIdChar c then (⟨.word, c :: (cut isIdChar cs).1⟩, (cut isIdChar cs).2)
  else operator c cs

/-- The tokens of a text; each is of a character at least, so as many steps as characters do. -/
def lexemes : ℕ → List Char → List Lexeme
  | 0, _ => []
  | _ + 1, [] => []
  | n + 1, c :: cs => (lexeme c cs).1 :: lexemes n (lexeme c cs).2

def tokenize (cs : List Char) : List Lexeme :=
  let text := cs.takeWhile (· ≠ '\x00')
  lexemes text.length text

/-! ### Statements -/

namespace Lexeme

/-- Comments and white space. -/
def isTrivia (l : Lexeme) : Bool := l.kind = .space || l.kind = .comment

def isKeyword (l : Lexeme) (k : String) : Bool :=
  l.kind = .word && l.text.map Char.toUpper = k.toList

/-- Undo the quotes of a name. -/
def undouble (d : Char) : List Char → List Char
  | c :: e :: cs => if c = d ∧ e = d then c :: undouble d cs else c :: undouble d (e :: cs)
  | cs => cs

/-- The name an identifier or text stands for, in capitals. -/
def name (l : Lexeme) : List Char :=
  (match l.kind, l.text with
  | .quoted, d :: cs => undouble d cs.dropLast
  | .bracket, _ :: cs => cs.dropLast
  | _, cs => cs).map Char.toUpper

end Lexeme

/-- The tokens of the first statement that is not empty, if none is illegal. -/
def firstStatement (cs : List Char) : Option (List Lexeme) :=
  let tokens := ((tokenize cs).filter fun l => !l.isTrivia).dropWhile (·.kind = .semi)
  let statement := tokens.takeWhile (·.kind ≠ .semi)
  if statement.any (·.kind = .illegal) then none else some statement

/-- What follows the parenthesis that closes the one before. -/
def closeGroup : ℕ → List Lexeme → Option (List Lexeme)
  | _, [] => none
  | depth, l :: ls =>
      if l.kind = .lp then closeGroup (depth + 1) ls
      else if l.kind = .rp then if depth = 0 then some ls else closeGroup (depth - 1) ls
      else closeGroup depth ls

/-- What follows a group in parentheses, if there is one. -/
def skipGroup : List Lexeme → Option (List Lexeme)
  | l :: ls => if l.kind = .lp then closeGroup 0 ls else some (l :: ls)
  | [] => some []

/-- What follows `AS`, with the words that may follow it. -/
def skipAs : List Lexeme → Option (List Lexeme)
  | a :: n :: m :: ls =>
      if a.isKeyword "AS" then
        if n.isKeyword "NOT" && m.isKeyword "MATERIALIZED" then some ls
        else if n.isKeyword "MATERIALIZED" then some (m :: ls)
        else some (n :: m :: ls)
      else none
  | _ => none

/-- What follows the parenthesis that ends a common table, of which the name is read. -/
def skipTable (ls : List Lexeme) : Option (List Lexeme) := do
  let ls ← skipGroup ls
  let ls ← skipAs ls
  match ls with
  | l :: ls => if l.kind = .lp then closeGroup 0 ls else none
  | [] => none

/-- What follows the common tables of `WITH`; every table takes a token, so as many steps as tokens
do. -/
def skipTables : ℕ → List Lexeme → Option (List Lexeme)
  | 0, _ => none
  | _ + 1, [] => none
  | n + 1, _ :: ls => do
      let ls ← skipTable ls
      match ls with
      | l :: ls => if l.kind = .comma then skipTables n ls else some (l :: ls)
      | [] => none

/-- What a statement that starts with `WITH` does, from what follows the word. -/
def mainVerb (ls : List Lexeme) : Option Lexeme :=
  let ls := match ls with
    | l :: rest => if l.isKeyword "RECURSIVE" then rest else l :: rest
    | [] => []
  (skipTables ls.length ls).bind List.head?

/-- The name of a pragma and whether it has an argument, from what follows the word. -/
def pragma : List Lexeme → Option (Lexeme × Bool)
  | s :: d :: l :: ls =>
      if d.kind = .dot then some (l, argument ls) else some (s, argument (d :: l :: ls))
  | s :: ls => some (s, argument ls)
  | [] => none
where
  argument : List Lexeme → Bool
    | l :: _ => l.kind = .eq || l.kind = .lp
    | [] => false

/-- The pragmas whose argument says what is to be read, or says nothing. -/
def argumentReads : List String :=
  ["TABLE_INFO", "TABLE_XINFO", "TABLE_LIST", "INDEX_LIST", "INDEX_INFO", "INDEX_XINFO",
    "FOREIGN_KEY_LIST", "FOREIGN_KEY_CHECK", "INTEGRITY_CHECK", "QUICK_CHECK", "DATABASE_LIST",
    "COMPILE_OPTIONS", "COLLATION_LIST", "FUNCTION_LIST", "MODULE_LIST", "PRAGMA_LIST",
    "PAGE_COUNT", "FREELIST_COUNT", "DATA_VERSION"]

/-- The statements that change the database, by their first word. -/
def writeVerbs : List String :=
  ["INSERT", "UPDATE", "DELETE", "REPLACE", "CREATE", "DROP", "ALTER", "VACUUM", "ATTACH", "DETACH",
    "REINDEX", "ANALYZE"]

/-- The statement starts with a word that makes it a write. -/
def startsWrite : List Lexeme → Bool
  | l :: _ => writeVerbs.any l.isKeyword
  | [] => false

/-- The statement is a write after `WITH`. -/
def withWrite : List Lexeme → Bool
  | l :: ls => l.isKeyword "WITH" && (mainVerb ls).any fun v =>
      ["INSERT", "UPDATE", "DELETE", "REPLACE"].any v.isKeyword
  | [] => false

/-- The statement assigns a pragma. -/
def pragmaAssigns : List Lexeme → Bool
  | l :: ls => l.isKeyword "PRAGMA" && (pragma ls).any fun p =>
      p.2 && !argumentReads.any fun r => p.1.name = r.toList
  | [] => false

/-- The statement changes the database. -/
def writes (ls : List Lexeme) : Bool := startsWrite ls || withWrite ls || pragmaAssigns ls

end SqlTokens
