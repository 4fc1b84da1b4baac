import RandallFlare.Lib.SqlTokens
import RandallFlare.Lib.Text

/-!
# Which SQL a read-only token may run

A translation of `public_sql_is_read_only` of `rf/src/console.rs`.  The check blanks what it takes
for quoted texts and comments and looks at the words that are left.  It does not know identifiers in
square brackets, nor variables with a text in parentheses, and it takes the first word after
`PRAGMA` that is left for the name of the pragma.

* `clean`, `publicSqlIsReadOnly`: the check;
* `misread`: a token in which the check takes something for a quote or a comment;
* `read_lexeme`: every other token shows as SQLite reads it.
-/

namespace RandallFlare

namespace Console

open SqlTokens List

/-- What the check is reading; `opening` is before the star of a block comment. -/
inductive ScanMode
  | code
  | quoted (finish : Char)
  | line
  | opening
  | block (previous : Char)

/-- The text with quoted texts and comments blanked. -/
def clean : ScanMode → List Char → List Char
  | _, [] => []
  | .quoted finish, c :: cs => ' ' :: clean (if c = finish then .code else .quoted finish) cs
  | .line, c :: cs => clean (if c = '\n' then .code else .line) cs
  | .opening, _ :: cs => clean (.block '\x00') cs
  | .block previous, c :: cs => clean (if previous = '*' ∧ c = '/' then .code else .block c) cs
  | .code, c :: cs =>
      if isQuote c then ' ' :: clean (.quoted c) cs
      else if c = '-' ∧ cs.head? = some '-' then ' ' :: clean .line cs
      else if c = '/' ∧ cs.head? = some '*' then ' ' :: clean .opening cs
      else c :: clean .code cs

/-- The statement without white space around it and the semicolon that ends it. -/
def statementOf (cleaned : List Char) : List Char :=
  let trimmed := Text.trim cleaned
  Text.trimEnd Text.isWhitespace
    (if trimmed.getLast? = some ';' then trimmed.dropLast else trimmed)

def isWordChar (c : Char) : Bool := c.isAlphanum || c = '_'

/-- The words of a text, in capitals. -/
def words (cs : List Char) : List (List Char) :=
  (Text.words isWordChar cs).map (·.map Char.toUpper)

/-- The word is one of the list. -/
def oneOf (names : List String) (word : List Char) : Bool := names.any (·.toList = word)

def writeWords : List String :=
  ["INSERT", "UPDATE", "DELETE", "REPLACE", "CREATE", "DROP", "ALTER", "VACUUM", "ATTACH", "DETACH",
    "REINDEX", "ANALYZE"]

def argumentPragmas : List String :=
  ["TABLE_INFO", "TABLE_XINFO", "INDEX_LIST", "INDEX_INFO", "INDEX_XINFO", "FOREIGN_KEY_LIST",
    "FOREIGN_KEY_CHECK", "INTEGRITY_CHECK", "QUICK_CHECK"]

def readPragmas : List String :=
  ["DATABASE_LIST", "TABLE_LIST", "COMPILE_OPTIONS", "COLLATION_LIST", "FUNCTION_LIST",
    "MODULE_LIST", "PRAGMA_LIST", "ENCODING", "PAGE_COUNT", "FREELIST_COUNT", "SCHEMA_VERSION",
    "USER_VERSION", "APPLICATION_ID"]

/-- What is checked of a pragma: the text left, and the words after the first. -/
def pragmaIsReadOnly (cleaned : List Char) (tokens : List (List Char)) : Bool :=
  if cleaned.contains '=' then false
  else match tokens.find? fun token => !oneOf ["MAIN", "TEMP"] token with
    | none => false
    | some pragma =>
        if cleaned.contains '(' && !oneOf argumentPragmas pragma then false
        else oneOf argumentPragmas pragma || oneOf readPragmas pragma

/-- There is no semicolon left but for one at the end. -/
def oneStatement (cleaned : List Char) : Bool := !(statementOf cleaned).contains ';'

def noWriteWord (cleaned : List Char) : Bool :=
  !(words (statementOf cleaned)).any (oneOf writeWords)

def publicSqlIsReadOnly (sql : String) : Bool :=
  let cleaned := clean .code sql.toList
  if !oneStatement cleaned then false
  else match words (statementOf cleaned) with
    | [] => false
    | first :: tokens =>
        if !oneOf ["SELECT", "WITH", "EXPLAIN", "PRAGMA"] first then false
        else if !noWriteWord cleaned then false
        else if first ≠ "PRAGMA".toList then true
        else pragmaIsReadOnly cleaned tokens

/-! ### What is left -/

/-- A quoted text or a comment starts here, as the check sees it. -/
def opener : List Char → Bool
  | [] => false
  | c :: cs => isQuote c || (c = '-' && cs.head? = some '-') || (c = '/' && cs.head? = some '*')

/-- No quoted text and no comment starts in the text, before the rest. -/
def quiet : List Char → List Char → Bool
  | [], _ => true
  | c :: cs, rest => !opener (c :: (cs ++ rest)) && quiet cs rest

/-- The check takes something in the token for the start of a quoted text or of a comment. -/
def misread (l : Lexeme) : Bool := (l.kind = .bracket || l.kind = .variable) && !quiet l.text []

variable {c : Char} {text rest : List Char}

theorem clean_cons {cs : List Char} (h : opener (c :: cs) = false) :
    clean .code (c :: cs) = c :: clean .code cs := by
  simp only [opener, Bool.or_eq_false_iff, Bool.and_eq_false_iff, decide_eq_false_iff_not] at h
  rw [clean, if_neg (by simp [h.1.1]), if_neg (by tauto), if_neg (by tauto)]

/-- A text in which nothing starts is left as it is. -/
theorem clean_append (h : quiet text rest) :
    clean .code (text ++ rest) = text ++ clean .code rest := by
  induction text with
  | nil => rfl
  | cons c cs ih =>
    simp only [quiet, Bool.and_eq_true, Bool.not_eq_true'] at h
    rw [cons_append, clean_cons h.1, ih h.2, cons_append]

/-- The characters nothing starts with. -/
def isPlain (c : Char) : Bool := !isQuote c && c ≠ '-' && c ≠ '/'

theorem opener_of_isPlain (h : isPlain c) (cs : List Char) : opener (c :: cs) = false := by
  simp only [isPlain, Bool.and_eq_true, Bool.not_eq_true', decide_eq_true_eq] at h
  simp [opener, h.1.1, h.1.2, h.2]

theorem quiet_of_isPlain (h : ∀ c ∈ text, isPlain c) (rest : List Char) : quiet text rest := by
  induction text with
  | nil => rfl
  | cons c cs ih =>
    rw [quiet, opener_of_isPlain (h c mem_cons_self), ih fun d hd => h d (mem_cons_of_mem c hd)]
    rfl

/-- What follows a text that ends in a plain character does not matter. -/
theorem quiet_append_plain (hc : isPlain c)
    (h : quiet (text ++ [c]) []) : quiet (text ++ [c]) rest := by
  induction text with
  | nil => exact quiet_of_isPlain (by simpa using hc) rest
  | cons d text ih =>
    simp only [cons_append, quiet, append_nil, Bool.and_eq_true, Bool.not_eq_true'] at h ⊢
    refine ⟨?_, ih h.2⟩
    cases text <;> simpa [opener] using h.1

/-- A test that the characters something starts with fail. -/
theorem isPlain_of {p : Char → Bool} (hp : ['\'', '"', '`', '-', '/'].all (fun d => !p d))
    (h : p c) : isPlain c := by
  have hne : ∀ d ∈ ['\'', '"', '`', '-', '/'], c ≠ d := by
    rintro d hd rfl
    simpa [h] using all_eq_true.1 hp c hd
  simp [isPlain, isQuote, hne]

theorem isPlain_of_isIdChar (h : isIdChar c) : isPlain c := isPlain_of (by decide) h

theorem isPlain_of_isSpace (h : isSpace c) : isPlain c := isPlain_of (by decide) h

theorem isIdChar_of_isWordChar (h : isWordChar c) : isIdChar c := by
  simp only [isWordChar, Bool.or_eq_true] at h
  rcases h with h | h <;> simp [isIdChar, h]

theorem toNat_of_isWordChar (h : isWordChar c) : 48 ≤ c.toNat ∧ c.toNat < 128 := by
  simp only [isWordChar, Bool.or_eq_true, decide_eq_true_eq] at h
  rcases h with h | rfl
  · change ((decide (65 ≤ c.val ∧ c.val ≤ 90) || (decide (97 ≤ c.val) && decide (c.val ≤ 122))) ||
      (decide (48 ≤ c.val) && decide (c.val ≤ 57))) = true at h
    simp only [Bool.or_eq_true, Bool.and_eq_true, decide_eq_true_eq, UInt32.le_iff_toNat_le] at h
    change ((65 ≤ c.toNat ∧ c.toNat ≤ 90) ∨ (97 ≤ c.toNat ∧ c.toNat ≤ 122)) ∨
      (48 ≤ c.toNat ∧ c.toNat ≤ 57) at h
    omega
  · decide

theorem not_isWordChar_of_isSpace (h : isSpace c) : isWordChar c = false := by
  by_contra hw
  have hrange := toNat_of_isWordChar (by simpa using hw)
  simp only [isSpace, Bool.or_eq_true, Bool.and_eq_true, decide_eq_true_eq] at h
  rcases h with h | rfl
  · omega
  · exact absurd hrange (by decide)

theorem not_isWordChar_of_isWhitespace (h : Text.isWhitespace c) : isWordChar c = false := by
  by_contra hw
  have hrange := toNat_of_isWordChar (by simpa using hw)
  simp only [Text.isWhitespace, Bool.or_eq_true, Bool.and_eq_true, decide_eq_true_eq,
    beq_iff_eq] at h
  omega

/-! ### Tokens -/

section Tokens

variable {tail : List Char}

variable {d : Char} {cs text rest : List Char} {c : Char} {l : Lexeme} {p : Char → Bool}

theorem clean_quoted (hd : isQuote d) (h : closeQuote d cs = some (text, rest)) : ∃ out,
      clean (.quoted d) (cs ++ tail) = out ++ clean .code (rest ++ tail) := by
  fun_induction closeQuote d cs generalizing text rest with
  | case1 => cases h
  | case2 =>
    cases h
    exact ⟨[' '], by simp [clean]⟩
  | case3 => cases h
  | case4 cs ih =>
    obtain ⟨⟨t, r⟩, hclose, hp⟩ := Option.map_eq_some_iff.1 h
    obtain ⟨-, rfl⟩ := Prod.mk.inj hp
    obtain ⟨out, hout⟩ := ih hclose
    exact ⟨' ' :: ' ' :: out, by simp [clean, hd, hout]⟩
  | case5 e cs hne =>
    cases h
    exact ⟨[' '], by simp [clean]⟩
  | case6 c e cs hne ih =>
    obtain ⟨⟨t, r⟩, hclose, hp⟩ := Option.map_eq_some_iff.1 h
    obtain ⟨-, rfl⟩ := Prod.mk.inj hp
    obtain ⟨out, hout⟩ := ih hclose
    refine ⟨' ' :: out, ?_⟩
    rw [cons_append, clean, if_neg hne, hout, cons_append]

theorem clean_block {previous : Char} (h : (blockComment previous cs).2 ≠ []) :
    clean (.block previous) (cs ++ tail) = clean .code ((blockComment previous cs).2 ++ tail) := by
  induction cs generalizing previous with
  | nil => exact absurd rfl h
  | cons c cs ih =>
    rw [blockComment] at h ⊢
    rw [cons_append, clean]
    split_ifs at h ⊢
    · rfl
    · exact ih h

theorem clean_line (h : (cut (· ≠ '\n') cs).2 = c :: rest) :
    clean .line (cs ++ tail) = clean .code (rest ++ tail) := by
  induction cs with
  | nil => cases h
  | cons d cs ih =>
    rw [cons_append, clean]
    by_cases hd : d = '\n'
    · simp only [cut, hd, ne_eq, not_true_eq_false, decide_false, Bool.false_eq_true,
        not_false_eq_true, dropWhile_cons_of_neg, cons.injEq] at h
      rw [if_pos hd, h.2]
    · rw [if_neg hd]
      refine ih ?_
      simpa [cut, hd] using h

/-- A text without its quote is blanked up to the quote. -/
theorem clean_until {body : List Char} (h : ∀ c ∈ body, c ≠ d) : ∃ out,
    clean (.quoted d) (body ++ d :: rest) = out ++ clean .code rest := by
  induction body with
  | nil => exact ⟨[' '], by simp [clean]⟩
  | cons c body ih =>
    obtain ⟨out, hout⟩ := ih fun e he => h e (mem_cons_of_mem c he)
    refine ⟨' ' :: out, ?_⟩
    rw [cons_append, clean, if_neg (h c mem_cons_self), hout, cons_append]

theorem quiet_append {a b : List Char} :
    quiet (a ++ b) rest = (quiet a (b ++ rest) && quiet b rest) := by
  induction a with
  | nil => rfl
  | cons c a ih => simp [quiet, ih, Bool.and_assoc]

/-- What a token shows after the check, before the rest of the text. -/
structure Shown (l : Lexeme) (rest out : List Char) : Prop where
  trivia : l.isTrivia → ∀ c ∈ out, isWordChar c = false
  semi : l.kind = .semi → out = [';']
  lp : l.kind = .lp → out = ['(']
  rp : l.kind = .rp → out = [')']
  dot : l.kind = .dot → out = ['.']
  eq : l.kind = .eq → '=' ∈ out
  word : l.kind = .word → out = l.text ∧ ∀ c ∈ rest.head?, isIdChar c = false

/-- The token shows something that is as it should be. -/
def Read (l : Lexeme) (cs rest tail : List Char) : Prop :=
  ∃ out, clean .code (cs ++ tail) = out ++ clean .code (rest ++ tail) ∧ Shown l rest out

theorem shown_other {out : List Char} (h : l.kind ∈
    [Kind.comma, .quoted, .bracket, .variable, .number, .blob, .operator]) : Shown l rest out := by
  obtain ⟨kind, text⟩ := l
  cases kind <;> simp at h <;> constructor <;> simp [Lexeme.isTrivia]

theorem cut_append (p : Char → Bool) (cs : List Char) : (cut p cs).1 ++ (cut p cs).2 = cs :=
  takeWhile_append_dropWhile

theorem of_mem_cut (h : c ∈ (cut p cs).1) : p c := (all_eq_true.1 all_takeWhile) c h

theorem not_of_cut (h : (cut p cs).2 = c :: rest) : p c = false := by
  have := head?_dropWhile_not p cs
  rw [show cs.dropWhile p = c :: rest from h] at this
  simpa using this

theorem read_of_quiet (hcs : cs = l.text ++ rest)
    (hquiet : quiet l.text (rest ++ tail)) (hshown : Shown l rest l.text) :
    Read l cs rest tail := by
  refine ⟨l.text, ?_, hshown⟩
  rw [hcs, append_assoc, clean_append hquiet]

theorem read_minus (hrest : (minus cs).2 ≠ []) :
    Read (minus cs).1 ('-' :: cs) (minus cs).2 tail := by
  fun_cases minus cs with
  | case1 cs line spaces =>
    -- The line ends, since something follows.
    cases hline : line.2 with
    | nil => exact absurd (show (cut isSpace line.2).2 = [] by rw [hline]; rfl) hrest
    | cons c after =>
      obtain rfl : c = '\n' := by simpa using not_of_cut hline
      have hspaces : spaces = ('\n' :: (cut isSpace after).1, (cut isSpace after).2) := by
        simp only [spaces, hline]
        rfl
      have hplain : ∀ c ∈ (cut isSpace after).1, isSpace c := fun c hc => of_mem_cut hc
      refine ⟨' ' :: (cut isSpace after).1, ?_, ?_⟩
      · have hquiet : quiet (cut isSpace after).1 ((cut isSpace after).2 ++ tail) :=
          quiet_of_isPlain (fun c hc => isPlain_of_isSpace (hplain c hc)) _
        have hafter : clean .code (after ++ tail) =
            (cut isSpace after).1 ++ clean .code ((cut isSpace after).2 ++ tail) := by
          rw [← clean_append hquiet, ← append_assoc, cut_append]
        have hline' : clean .code ('-' :: '-' :: cs ++ tail) = ' ' :: clean .line (cs ++ tail) := by
          simp [clean, isQuote]
        rw [hspaces, hline', clean_line hline, hafter, cons_append]
      · refine ⟨fun _ c hc => ?_, nofun, nofun, nofun, nofun, nofun, nofun⟩
        rcases mem_cons.1 hc with rfl | hc
        · rfl
        · exact not_isWordChar_of_isSpace (hplain c hc)
  | case2 cs => exact read_of_quiet rfl rfl (shown_other (by simp))
  | case3 cs hne => exact read_of_quiet rfl rfl (shown_other (by simp))
  | case4 cs hminus harrow =>
    refine read_of_quiet rfl ?_ (shown_other (by simp))
    cases cs with
    | nil => exact absurd rfl hrest
    | cons c cs =>
      have hc : c ≠ '-' := fun hc => hminus cs (by rw [hc])
      simp [quiet, opener, hc, isQuote]

theorem read_slash (hrest : (slash cs).2 ≠ []) (hstar : (slash cs).2 ≠ ['*']) :
    Read (slash cs).1 ('/' :: cs) (slash cs).2 tail := by
  fun_cases slash cs with
  | case1 c cs =>
    refine ⟨[' '], ?_, ⟨fun _ c hc => by rw [mem_singleton.1 hc]; rfl, nofun, nofun, nofun,
      nofun, nofun, nofun⟩⟩
    rw [singleton_append, ← clean_block hrest]
    simp [clean, isQuote]
  | case2 cs hcomment =>
    refine read_of_quiet rfl ?_ (shown_other (by simp))
    match cs, hrest, hstar with
    | c :: cs, _, hstar =>
      have hc : c ≠ '*' := by
        rintro rfl
        cases cs with
        | nil => exact hstar rfl
        | cons d cs => exact hcomment d cs rfl
      simp [quiet, opener, hc, isQuote]

theorem read_quoted (hd : isQuote d) (hkind : (quoted d cs).1.kind ≠ .illegal) :
    Read (quoted d cs).1 (d :: cs) (quoted d cs).2 tail := by
  fun_cases quoted d cs with
  | case1 text rest hclose =>
    obtain ⟨out, hout⟩ :
        ∃ out, clean (.quoted d) (cs ++ tail) = out ++ clean .code (rest ++ tail) :=
      clean_quoted hd hclose
    exact ⟨' ' :: out, by simp [clean, hd, hout], shown_other (by simp)⟩
  | case2 hclose => simp [quoted, hclose] at hkind

theorem read_bracket (hkind : (bracket cs).1.kind ≠ .illegal)
    (hmisread : misread (bracket cs).1 = false) :
    Read (bracket cs).1 ('[' :: cs) (bracket cs).2 tail := by
  fun_cases bracket cs with
  | case1 body c rest hcut =>
    have hc : c = ']' := by simpa using not_of_cut (congrArg Prod.snd hcut)
    have hcs : cs = body ++ c :: rest := by
      rw [← cut_append (· ≠ ']') cs, hcut]
    have hquiet : quiet ('[' :: body ++ [c]) [] := by
      simp only [misread, bracket, hcut] at hmisread
      simpa using hmisread
    refine read_of_quiet (by simp [hcs]) ?_ (shown_other (by simp))
    exact quiet_append_plain (by rw [hc]; decide) hquiet
  | case2 body hcut =>
    simp only [bracket, hcut] at hkind
    exact absurd rfl hkind

theorem read_blob {x : Char} (hx : isPlain x) (hkind : (blob x cs).1.kind ≠ .illegal) :
    Read (blob x cs).1 (x :: '\'' :: cs) (blob x cs).2 tail := by
  fun_cases blob x cs with
  | case1 body c rest hcut =>
    obtain rfl : c = '\'' := by simpa using not_of_cut (congrArg Prod.snd hcut)
    have hbody : ∀ c ∈ body, c ≠ '\'' := by
      intro c hc
      have : c ∈ (cut (· ≠ '\'') cs).1 := by rwa [hcut]
      simpa using of_mem_cut this
    have hcs : cs = body ++ '\'' :: rest := by
      rw [← cut_append (· ≠ '\'') cs, hcut]
    obtain ⟨out, hout⟩ : ∃ out, clean (.quoted '\'') (body ++ '\'' :: (rest ++ tail)) =
      out ++ clean .code (rest ++ tail) := clean_until hbody
    refine ⟨x :: ' ' :: out, ?_, shown_other ?_⟩
    · rw [cons_append, clean_cons (opener_of_isPlain hx _), hcs]
      simp [clean, isQuote, hout]
    · simp only [blob, hcut] at hkind
      split_ifs at hkind ⊢ with hhex
      · simp
      · exact absurd rfl hkind
  | case2 body hcut =>
    simp only [blob, hcut] at hkind
    exact absurd rfl hkind

theorem variableTail_append (seen : Bool) (cs : List Char) :
    (variableTail seen cs).2.1 ++ (variableTail seen cs).2.2 = cs := by
  fun_induction variableTail seen cs with
  | case1 => rfl
  | case2 seen cs ih => simp [ih]
  | case3 seen c cs hne hid ih => simp [ih]
  | case4 seen c cs hne hid hopen body rest hcut =>
    have := cut_append (fun e => !isSpace e && e ≠ ')') cs
    rw [hcut] at this
    simp [← this]
  | case5 seen c cs hne hid hopen body rest hclosed hcut =>
    have := cut_append (fun e => !isSpace e && e ≠ ')') cs
    rw [hcut] at this
    simp [← this]
  | case6 => rfl

theorem variableTail_last {seen : Bool} (hok : (variableTail seen cs).1)
    (h : (variableTail seen cs).2.1.getLast? = some c) : isPlain c := by
  fun_induction variableTail seen cs with
  | case1 => cases h
  | case2 seen cs ih =>
    cases hlast : (variableTail seen cs).2.1.getLast? with
    | none =>
      simp [getLast?_eq_none_iff.1 hlast] at h
      rw [← h]
      decide
    | some e =>
      simp [getLast?_cons, hlast] at h
      exact ih hok (h ▸ hlast)
  | case3 seen d cs hne hid ih =>
    cases hlast : (variableTail true cs).2.1.getLast? with
    | none =>
      simp [getLast?_eq_none_iff.1 hlast] at h
      exact h ▸ isPlain_of_isIdChar hid
    | some e =>
      simp [getLast?_cons, hlast] at h
      exact ih hok (h ▸ hlast)
  | case4 seen d cs hne hid hopen body rest hcut =>
    simp [getLast?_cons] at h
    rw [← h]
    decide
  | case5 => cases hok
  | case6 => cases h

/-- A text in which nothing starts, and after whose last character nothing starts. -/
theorem quiet_of_last (hquiet : quiet text [])
    (hlast : ∀ c ∈ text.getLast?, isPlain c) : quiet text rest := by
  rcases eq_nil_or_concat text with rfl | ⟨init, c, rfl⟩
  · rfl
  · rw [concat_eq_append] at *
    exact quiet_append_plain (hlast c (by simp)) hquiet

/-- A run of plain characters is quiet, whatever follows. -/
theorem quiet_cut (hp : ['\'', '"', '`', '-', '/'].all (fun d => !p d))
    (cs rest : List Char) : quiet (cut p cs).1 rest :=
  quiet_of_isPlain (fun _ hc => isPlain_of hp (of_mem_cut hc)) rest

theorem fraction_spec (cs rest : List Char) :
    (fraction cs).1 ++ (fraction cs).2 = cs ∧ quiet (fraction cs).1 rest := by
  fun_cases fraction cs with
  | case1 cs =>
    refine ⟨by rw [cons_append, cut_append], ?_⟩
    rw [quiet, opener_of_isPlain (by decide), quiet_cut (by decide)]
    rfl
  | case2 cs => exact ⟨rfl, rfl⟩

theorem exponent_spec (cs rest : List Char) :
    (exponent cs).1 ++ (exponent cs).2 = cs ∧ quiet (exponent cs).1 rest := by
  fun_cases exponent cs with
  | case1 e s cs h =>
    refine ⟨by simp [cut_append], ?_⟩
    have he : isPlain e := by
      rcases h.1 with rfl | rfl <;> decide
    have hs : opener (s :: ((cut isDigitOrSeparator cs).1 ++ rest)) = false := by
      rcases h.2 with hs | ⟨hs, hdigit⟩
      · exact opener_of_isPlain (isPlain_of (by decide) hs) _
      -- A sign is followed by a digit.
      · match cs, hdigit with
        | d :: cs, hdigit =>
          have hd : isDigitOrSeparator d := by simpa [isDigitOrSeparator] using .inl hdigit
          have hplain : isPlain d := isPlain_of (by decide) hd
          simp only [isPlain, Bool.and_eq_true, decide_eq_true_eq] at hplain
          rcases hs with rfl | rfl <;> simp [opener, cut, hd, isQuote, hplain.1.2]
    simp only [quiet, cons_append, opener_of_isPlain he, hs,
      quiet_cut (p := isDigitOrSeparator) (by decide)]
    rfl
  | case2 => exact ⟨rfl, rfl⟩
  | case3 => exact ⟨rfl, rfl⟩

theorem digits_spec (cs rest : List Char) :
    (digits cs).1 ++ (digits cs).2 = cs ∧ quiet (digits cs).1 rest := by
  have hdecimal : ∀ cs, (digits.decimal cs).1 ++ (digits.decimal cs).2 = cs ∧
      quiet (digits.decimal cs).1 rest := by
    intro cs
    have hwhole := cut_append isDigitOrSeparator cs
    obtain ⟨hpart, hpart'⟩ := fraction_spec (cut isDigitOrSeparator cs).2
      ((exponent (fraction (cut isDigitOrSeparator cs).2).2).1 ++ rest)
    obtain ⟨hpower, hpower'⟩ := exponent_spec (fraction (cut isDigitOrSeparator cs).2).2 rest
    constructor
    · simp only [digits.decimal, append_assoc, hpower, hpart, hwhole]
    · simp only [digits.decimal, quiet_append, hpower', Bool.and_true, hpart',
        quiet_cut (p := isDigitOrSeparator) (by decide)]
  fun_cases digits cs with
  | case1 x h cs hhex =>
    refine ⟨by simp [cut_append], ?_⟩
    have hx : isPlain x := by
      rcases hhex.1 with rfl | rfl <;> decide
    simp only [quiet, opener_of_isPlain hx, opener_of_isPlain (show isPlain '0' by decide),
      quiet_cut (p := fun c => isHexDigit c || c = '_') (by decide)]
    rfl
  | case2 x h cs hhex => exact hdecimal _
  | case3 cs hne => exact hdecimal _

theorem shown_single (c : Char) (rest : List Char) : Shown ⟨operator.single c, [c]⟩ rest [c] := by
  unfold operator.single
  split_ifs <;> constructor <;> simp_all [Lexeme.isTrivia]

theorem read_operator (hc : isPlain c) (cs : List Char) :
    Read (operator c cs).1 (c :: cs) (operator c cs).2 tail := by
  have hsingle : ∀ rest, Read ⟨operator.single c, [c]⟩ (c :: rest) rest tail := fun rest =>
    read_of_quiet rfl (quiet_of_isPlain (by simpa using hc) _) (shown_single c rest)
  fun_cases operator c cs with
  | case1 rest =>
    exact read_of_quiet rfl (quiet_of_isPlain (by simp [isPlain, isQuote]) _)
      ⟨nofun, nofun, nofun, nofun, nofun, fun _ => by simp, nofun⟩
  | case9 => exact hsingle _
  | _ rest =>
    exact read_of_quiet rfl (quiet_of_isPlain (by simp [isPlain, isQuote]) _)
      (shown_other (by simp))

/-- **The check reads a token as SQLite does**, unless it misreads it or the text ends there. -/
theorem read_lexeme (c : Char) (cs : List Char) : (lexeme c cs).1.kind ≠ .illegal →
    misread (lexeme c cs).1 = false → (lexeme c cs).2 ≠ [] → (lexeme c cs).2 ≠ ['*'] →
    Read (lexeme c cs).1 (c :: cs) (lexeme c cs).2 tail := by
  fun_cases lexeme c cs with
  | case1 hspace =>
    intro _ _ _ _
    have hplain : ∀ d ∈ c :: (cut isSpace cs).1, isSpace d := by
      intro d hd
      rcases mem_cons.1 hd with rfl | hd
      · exact (Bool.and_eq_true_iff.1 hspace).1
      · exact of_mem_cut hd
    refine read_of_quiet (by rw [cons_append, cut_append])
      (quiet_of_isPlain (fun d hd => isPlain_of_isSpace (hplain d hd)) _) ?_
    exact ⟨fun _ d hd => not_isWordChar_of_isSpace (hplain d hd), nofun, nofun, nofun, nofun, nofun,
      nofun⟩
  | case2 _ hbom =>
    intro _ _ _ _
    subst hbom
    refine read_of_quiet rfl (quiet_of_isPlain (by simp [isPlain, isQuote]) _) ?_
    exact ⟨fun _ d hd => by rw [mem_singleton.1 hd]; rfl, nofun, nofun, nofun, nofun, nofun, nofun⟩
  | case3 _ _ hminus =>
    intro _ _ hrest _
    subst hminus
    exact read_minus hrest
  | case4 _ _ _ hslash =>
    intro _ _ hrest hstar
    subst hslash
    exact read_slash hrest hstar
  | case5 _ _ _ _ hquote =>
    intro hkind _ _ _
    exact read_quoted hquote hkind
  | case6 _ _ _ _ _ hbracket =>
    intro hkind hmisread _ _
    subst hbracket
    exact read_bracket hkind hmisread
  | case7 _ _ _ _ _ _ hquestion =>
    intro _ _ _ _
    subst hquestion
    refine read_of_quiet (by rw [cons_append, cut_append]) ?_ (shown_other (by simp))
    rw [quiet, opener_of_isPlain (by decide), quiet_cut (by decide)]
    rfl
  | case8 _ _ _ _ _ _ _ hc name =>
    intro hkind hmisread _ _
    have hok : name.1 := by
      by_contra hno
      exact hkind (if_neg hno)
    have hplain : isPlain c := by
      simp only [mem_cons, not_mem_nil, or_false] at hc
      rcases hc with rfl | rfl | rfl | rfl <;> decide
    refine read_of_quiet (by rw [cons_append, variableTail_append]) ?_
      (shown_other (by simp [hok]))
    refine quiet_of_last (by simpa [misread, hok] using hmisread) fun d hd => ?_
    cases hlast : name.2.1.getLast? with
    | none =>
      rw [getLast?_eq_none_iff.1 hlast] at hd
      obtain rfl : c = d := by simpa using hd
      exact hplain
    | some e =>
      obtain rfl : e = d := by simpa [getLast?_cons, hlast] using hd
      exact variableTail_last hok hlast
  | case9 _ _ _ _ _ _ _ _ hdigit =>
    intro hkind _ _ _
    simp only [number] at hkind ⊢
    have hbad : (cut isIdChar (digits (c :: cs)).2).1 = [] := by
      by_contra hne
      exact hkind (if_neg hne)
    refine read_of_quiet ?_ ?_ (shown_other (by simp [hbad]))
    · rw [append_assoc, cut_append, (digits_spec (c :: cs) []).1]
    · rw [quiet_append, (digits_spec (c :: cs) _).2, quiet_cut (by decide)]
      rfl
  | case10 _ _ _ _ _ _ _ _ _ hx =>
    intro hkind _ _ _
    have hplain : isPlain c := by
      rcases hx.1 with rfl | rfl <;> decide
    match cs, hx.2 with
    | d :: cs, hd =>
      obtain rfl : d = '\'' := Option.some.inj hd
      exact read_blob hplain hkind
  | case11 _ _ _ _ _ _ _ _ _ _ hid =>
    intro _ _ _ _
    refine read_of_quiet (by rw [cons_append, cut_append]) ?_ ?_
    · rw [quiet, opener_of_isPlain (isPlain_of_isIdChar hid), quiet_cut (by decide)]
      rfl
    · refine ⟨nofun, nofun, nofun, nofun, nofun, nofun, fun _ => ⟨rfl, fun d hd => ?_⟩⟩
      cases hrest : (cut isIdChar cs).2 with
      | nil => simp [hrest] at hd
      | cons e rest =>
        obtain rfl : e = d := by simpa [hrest] using hd
        exact not_of_cut hrest
  | case12 _ _ hminus hslash hquote =>
    intro _ _ _ _
    exact read_operator (by simp [isPlain, hminus, hslash, hquote]) cs

theorem operator_kind (c : Char) (cs : List Char) : (operator c cs).1.kind ∈
    [Kind.semi, .lp, .rp, .comma, .dot, .eq, .operator, .illegal] := by
  fun_cases operator c cs with
  | case9 =>
    dsimp only [operator.single]
    split_ifs <;> decide
  | _ => simp

/-- Words and symbols are read so; the other tokens are of other kinds. -/
theorem lexeme_cases (c : Char) (cs : List Char) :
    (isIdChar c ∧ lexeme c cs = (⟨.word, c :: (cut isIdChar cs).1⟩, (cut isIdChar cs).2)) ∨
    (isPlain c ∧ lexeme c cs = operator c cs) ∨ (lexeme c cs).1.kind ∈
      [Kind.space, .comment, .quoted, .bracket, .variable, .number, .blob, .operator,
        .illegal] := by
  fun_cases lexeme c cs with
  | case3 =>
    refine .inr (.inr ?_)
    fun_cases minus cs <;> simp
  | case4 =>
    refine .inr (.inr ?_)
    fun_cases slash cs <;> simp
  | case5 =>
    refine .inr (.inr ?_)
    fun_cases quoted c cs <;> simp
  | case6 =>
    refine .inr (.inr ?_)
    fun_cases bracket cs <;> simp
  | case8 =>
    refine .inr (.inr ?_)
    split_ifs <;> simp
  | case9 =>
    refine .inr (.inr ?_)
    dsimp only [number]
    split_ifs <;> simp
  | case10 =>
    refine .inr (.inr ?_)
    fun_cases blob c cs.tail with
    | case1 =>
      split_ifs <;> simp
    | case2 => simp
  | case11 _ _ _ _ _ _ _ _ _ _ hid => exact .inl ⟨hid, rfl⟩
  | case12 _ _ hminus hslash hquote =>
    exact .inr (.inl ⟨by simp [isPlain, hminus, hslash, hquote], rfl⟩)
  | _ => simp

theorem lexeme_word (h : (lexeme c cs).1.kind = .word) :
    isIdChar c ∧ lexeme c cs = (⟨.word, c :: (cut isIdChar cs).1⟩, (cut isIdChar cs).2) := by
  rcases lexeme_cases c cs with hword | ⟨-, hop⟩ | hother
  · exact hword
  · have := operator_kind c cs
    rw [← hop, h] at this
    simp at this
  · rw [h] at hother
    simp at hother

/-- The tokens of one character, and the equals signs. -/
def isSymbol (l : Lexeme) : Bool := l.kind ∈ [Kind.semi, .lp, .rp, .dot, .eq]

theorem lexeme_symbol (h : isSymbol (lexeme c cs).1) : isPlain c ∧ lexeme c cs = operator c cs := by
  simp only [isSymbol, decide_eq_true_eq] at h
  rcases lexeme_cases c cs with ⟨-, hword⟩ | hop | hother
  · rw [hword] at h
    simp at h
  · exact hop
  · generalize (lexeme c cs).1.kind = k at h hother
    cases k <;> simp at h hother

end Tokens

end Console

end RandallFlare
