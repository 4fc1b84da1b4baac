import RandallFlare.Lib.Text

/-!
# Joined texts

Texts that are joined with a separator none of them contains can be taken apart again.  Collapsing
white space keeps the words of a text and puts one blank between them, so a text without a blank at
its ends is determined by what it collapses to only if that has no blank.

* `join`, `join_inj`: texts joined with a separator;
* `collapse`, `eq_collapse`: one blank between the words.
-/

namespace Text

open List

/-- The texts with a separator between them. -/
def join (sep : Char) (ls : List (List Char)) : List Char := [sep].intercalate ls

@[simp]
theorem join_nil (sep : Char) : join sep [] = [] := rfl

@[simp]
theorem join_singleton (sep : Char) (l : List Char) : join sep [l] = l := by
  simp [join, intercalate]

variable {sep : Char} {l : List Char} {ls ms : List (List Char)} {c : Char} {p : Char → Bool}
  {w : List Char} {ws : List (List Char)}

theorem join_cons (h : ls ≠ []) : join sep (l :: ls) = l ++ sep :: join sep ls := by
  obtain ⟨m, ms, rfl⟩ := exists_cons_of_ne_nil h
  simp [join, intercalate]

/-- Texts without the separator can be read off what they are joined to. -/
theorem join_inj (hl : ∀ l ∈ ls, sep ∉ l)
    (hm : ∀ m ∈ ms, sep ∉ m) (hls : ls ≠ []) (hms : ms ≠ []) (h : join sep ls = join sep ms) :
    ls = ms := by
  rw [← splitOn_intercalate sep hl hls, ← splitOn_intercalate sep hm hms]
  exact congrArg (splitOn sep) h

/-- Texts that are not empty can be read off also if there may be none. -/
theorem join_inj_of_ne_nil (hl : ∀ l ∈ ls, l ≠ [] ∧ sep ∉ l) (hm : ∀ m ∈ ms, m ≠ [] ∧ sep ∉ m)
    (h : join sep ls = join sep ms) : ls = ms := by
  have hnil : ∀ {ns : List (List Char)}, (∀ n ∈ ns, n ≠ [] ∧ sep ∉ n) → join sep ns = [] →
      ns = [] := by
    intro ns hn hjoin
    cases ns with
    | nil => rfl
    | cons n ns =>
      exfalso
      have hne := (hn n mem_cons_self).1
      cases ns with
      | nil => exact hne (by simpa using hjoin)
      | cons m ns => simp [join_cons] at hjoin
  by_cases hls : ls = []
  · subst hls
    exact (hnil hm h.symm).symm
  by_cases hms : ms = []
  · subst hms
    exact hnil hl h
  exact join_inj (fun l hl' => (hl l hl').2) (fun m hm' => (hm m hm').2) hls hms h

theorem join_append (sep : Char) (ls : List (List Char)) (m : List Char) (ms : List (List Char)) :
    join sep (ls ++ m :: ms) = ls.flatMap (· ++ [sep]) ++ join sep (m :: ms) := by
  induction ls with
  | nil => rfl
  | cons l ls ih =>
    rw [cons_append, join_cons (by simp), ih]
    simp

theorem not_mem_of_mem_splitOn {part : List Char} (h : part ∈ l.splitOn sep) : sep ∉ part := by
  induction l generalizing part with
  | nil =>
    simp only [splitOn_nil, mem_singleton] at h
    simp [h]
  | cons c l ih =>
    rw [splitOn, splitOnP_cons_eq_if_modifyHead] at h
    split_ifs at h with hc
    · rcases mem_cons.1 h with rfl | h
      · simp
      · exact ih h
    · -- The character goes to the first part of the rest.
      obtain ⟨m, ms, hms⟩ := exists_cons_of_ne_nil (splitOnP_ne_nil (· == sep) l)
      rw [hms, modifyHead_cons] at h
      have ih : ∀ part ∈ m :: ms, sep ∉ part := fun part hpart => ih (by
        rw [splitOn, hms]
        exact hpart)
      rcases mem_cons.1 h with rfl | h
      · have hne : sep ≠ c := fun heq => hc (by simp [heq])
        simpa [hne] using ih m mem_cons_self
      · exact ih part (mem_cons_of_mem m h)

theorem mem_join (h : c ∈ join sep ls) : c = sep ∨ ∃ l ∈ ls, c ∈ l := by
  induction ls with
  | nil => simp at h
  | cons l ls ih =>
    by_cases hls : ls = []
    · subst hls
      exact .inr ⟨l, mem_cons_self, by simpa using h⟩
    · rw [join_cons hls, mem_append, mem_cons] at h
      rcases h with h | rfl | h
      · exact .inr ⟨l, mem_cons_self, h⟩
      · exact .inl rfl
      · exact (ih h).imp_right fun ⟨m, hm, hc⟩ => ⟨m, mem_cons_of_mem l hm, hc⟩

theorem mem_join_of_mem (hl : l ∈ ls) (hc : c ∈ l) : c ∈ join sep ls := by
  induction ls with
  | nil => cases hl
  | cons m ls ih =>
    by_cases hls : ls = []
    · simp_all
    · rw [join_cons hls, mem_append, mem_cons]
      rcases mem_cons.1 hl with rfl | hl
      · exact .inl hc
      · exact .inr (.inr (ih hl))

/-! ### White space -/

def isAsciiWhitespace (c : Char) : Bool :=
  c = ' ' || c = '\t' || c = '\n' || c = '\x0C' || c = '\r'

/-- `split_ascii_whitespace`. -/
def asciiWords (l : List Char) : List (List Char) := words (fun c => !isAsciiWhitespace c) l

/-- One blank between the words. -/
def collapse (l : List Char) : List Char := join ' ' (asciiWords l)

theorem wordsFrom_spec {word : List Char} (hword : ∀ c ∈ word, p c)
    (l : List Char) : ∀ w ∈ wordsFrom p word l, w ≠ [] ∧ ∀ c ∈ w, p c := by
  induction l generalizing word with
  | nil =>
    intro w hw
    unfold wordsFrom at hw
    split_ifs at hw with hne
    · cases hw
    · rw [mem_singleton.1 hw]
      exact ⟨hne, hword⟩
  | cons c l ih =>
    intro w hw
    unfold wordsFrom at hw
    split_ifs at hw with hc hne
    · refine ih (fun d hd => ?_) w hw
      rcases mem_append.1 hd with hd | hd
      · exact hword d hd
      · rw [mem_singleton.1 hd]
        exact hc
    · exact ih (by simp) w hw
    · rcases mem_cons.1 hw with rfl | hw
      · exact ⟨hne, hword⟩
      · exact ih (by simp) w hw

theorem words_spec (l : List Char) : ∀ w ∈ words p l, w ≠ [] ∧ ∀ c ∈ w, p c :=
  wordsFrom_spec (by simp) l

theorem flatten_wordsFrom (word l : List Char) :
    (wordsFrom p word l).flatten = word ++ l.filter p := by
  induction l generalizing word with
  | nil =>
    unfold wordsFrom
    split_ifs with h <;> simp [h]
  | cons c l ih =>
    unfold wordsFrom
    split_ifs with hc h
    · simp [ih, hc]
    · simp [ih, hc, h]
    · simp [ih, hc]

/-- The words are the text without its separators. -/
theorem flatten_words (l : List Char) : (words p l).flatten = l.filter p := by
  simpa [words] using flatten_wordsFrom (p := p) [] l

theorem words_of_all (hw : ∀ c ∈ w, p c) (hne : w ≠ []) : words p w = [w] := by
  rw [words, wordsFrom_of_all hw, nil_append, if_neg hne]

/-- Words that are joined again with a separator are the words of that text. -/
theorem words_join (hsep : p sep = false)
    (hws : ∀ w ∈ ws, w ≠ [] ∧ ∀ c ∈ w, p c) : words p (join sep ws) = ws := by
  induction ws with
  | nil => rfl
  | cons w ws ih =>
    obtain ⟨hne, hw⟩ := hws w mem_cons_self
    have ih := ih fun v hv => hws v (mem_cons_of_mem w hv)
    by_cases hnil : ws = []
    · subst hnil
      rw [join_singleton, words_of_all hw hne]
    · rw [join_cons hnil, words_append hsep, words_of_all hw hne, ih, singleton_append]

theorem asciiWords_spec (h : w ∈ asciiWords l) : w ≠ [] ∧ ∀ c ∈ w, isAsciiWhitespace c = false := by
  obtain ⟨hne, hw⟩ := words_spec l w h
  exact ⟨hne, fun c hc => by simpa using hw c hc⟩

theorem asciiWords_collapse (l : List Char) : asciiWords (collapse l) = asciiWords l :=
  words_join rfl (words_spec l)

@[simp]
theorem collapse_collapse (l : List Char) : collapse (collapse l) = collapse l := by
  rw [collapse, asciiWords_collapse]
  rfl

/-- What is not white space stays. -/
theorem mem_collapse_iff (hc : isAsciiWhitespace c = false) : c ∈ collapse l ↔ c ∈ l := by
  have hflat : c ∈ (asciiWords l).flatten ↔ c ∈ l := by
    rw [asciiWords, flatten_words, mem_filter]
    simp [hc]
  rw [← hflat, mem_flatten]
  constructor
  · intro h
    rcases mem_join h with rfl | h
    · cases hc
    · exact h
  · rintro ⟨w, hw, hcw⟩
    exact mem_join_of_mem hw hcw

theorem collapse_of_none (h : ∀ c ∈ l, isAsciiWhitespace c = false) : collapse l = l := by
  by_cases hl : l = []
  · subst hl
    rfl
  · rw [collapse, asciiWords, words_of_all (by simpa using h) hl, join_singleton]

theorem asciiWords_ne_nil (hc : isAsciiWhitespace c = false) (h : c ∈ l) : asciiWords l ≠ [] := by
  intro hnil
  have := (mem_collapse_iff hc).2 h
  rw [collapse, hnil] at this
  cases this

/-- No white space at the ends. -/
def isTrimmed (l : List Char) : Bool :=
  l.head?.all (fun c => !isAsciiWhitespace c) && l.getLast?.all fun c => !isAsciiWhitespace c

/-- White space inside a trimmed text leaves a blank. -/
theorem blank_mem_collapse (h : isTrimmed l) (hc : c ∈ l)
    (hblank : isAsciiWhitespace c) : ' ' ∈ collapse l := by
  obtain ⟨a, b, rfl⟩ := append_of_mem hc
  simp only [isTrimmed, Bool.and_eq_true, Option.all_eq_true, Bool.not_eq_true'] at h
  have hfirst : asciiWords a ≠ [] := by
    cases a with
    | nil => simpa [hblank] using h.1 c
    | cons d a => exact asciiWords_ne_nil (h.1 d rfl) mem_cons_self
  have hlast : asciiWords b ≠ [] := by
    rcases eq_nil_or_concat b with rfl | ⟨b, d, rfl⟩
    · simpa [hblank] using h.2 c
    · exact asciiWords_ne_nil (h.2 d (by simp [getLast?_cons])) (by simp)
  have hwords : asciiWords (a ++ c :: b) = asciiWords a ++ asciiWords b :=
    words_append (by simpa using hblank) a b
  obtain ⟨w, ws, hw⟩ := exists_cons_of_ne_nil hfirst
  rw [collapse, hwords, hw, cons_append, join_cons (by simp [hlast])]
  simp

/-- A trimmed text that collapses to one without a blank is that text. -/
theorem eq_collapse (h : isTrimmed l) (hblank : ' ' ∉ collapse l) : l = collapse l := by
  refine (collapse_of_none fun c hc => ?_).symm
  by_contra hc'
  exact hblank (blank_mem_collapse h hc (by simpa using hc'))

theorem isTrimmed_append {a b : List Char} (ha : a ≠ []) (hb : b ≠ []) (c : List Char) :
    isTrimmed (a ++ c ++ b) = (a.head?.all (fun d => !isAsciiWhitespace d) &&
        b.getLast?.all fun d => !isAsciiWhitespace d) := by
  obtain ⟨d, a, rfl⟩ := exists_cons_of_ne_nil ha
  obtain ⟨b, e, rfl⟩ := eq_nil_or_concat b |>.resolve_left hb
  have hlast : (d :: a ++ c ++ b.concat e).getLast? = some e := by
    rw [concat_eq_append, ← append_assoc, getLast?_concat]
  rw [isTrimmed, hlast, concat_eq_append, getLast?_concat]
  rfl

theorem join_words_ne_nil (hne : ws ≠ [])
    (hws : ∀ w ∈ ws, w ≠ [] ∧ ∀ c ∈ w, isAsciiWhitespace c = false) : join ' ' ws ≠ [] := by
  obtain ⟨w, ws, rfl⟩ := exists_cons_of_ne_nil hne
  obtain ⟨c, hc⟩ := exists_mem_of_ne_nil w (hws w mem_cons_self).1
  exact ne_nil_of_mem (mem_join_of_mem mem_cons_self hc)

theorem isTrimmed_of_none (hw : ∀ c ∈ w, isAsciiWhitespace c = false) : isTrimmed w := by
  simp only [isTrimmed, Bool.and_eq_true, Option.all_eq_true, Bool.not_eq_true']
  exact ⟨fun c hc => hw c (mem_of_mem_head? hc), fun c hc => hw c (mem_of_getLast? hc)⟩

theorem isTrimmed_join (hws : ∀ w ∈ ws, w ≠ [] ∧ ∀ c ∈ w, isAsciiWhitespace c = false) :
    isTrimmed (join ' ' ws) := by
  induction ws with
  | nil => rfl
  | cons w ws ih =>
    obtain ⟨hne, hw⟩ := hws w mem_cons_self
    have hws' := fun v (hv : v ∈ ws) => hws v (mem_cons_of_mem w hv)
    by_cases hnil : ws = []
    · subst hnil
      simpa using isTrimmed_of_none hw
    · have ih := ih hws'
      have hw := isTrimmed_of_none hw
      rw [join_cons hnil, ← singleton_append, ← append_assoc,
        isTrimmed_append hne (join_words_ne_nil hnil hws')]
      simp only [isTrimmed, Bool.and_eq_true] at ih hw ⊢
      exact ⟨hw.1, ih.2⟩

theorem isTrimmed_collapse (l : List Char) : isTrimmed (collapse l) :=
  isTrimmed_join fun _ hw => asciiWords_spec hw

theorem mem_of_mem_collapse (h : c ∈ collapse l) : c = ' ' ∨ c ∈ l := by
  rcases mem_join h with rfl | ⟨w, hw, hc⟩
  · exact .inl rfl
  · exact .inr ((mem_collapse_iff ((asciiWords_spec hw).2 c hc)).1 h)

/-- The only white space of a collapsed text are its blanks. -/
theorem not_isAsciiWhitespace_of_mem_collapse (h : c ∈ collapse l)
    (hc : c ≠ ' ') : isAsciiWhitespace c = false := by
  rcases mem_join h with h | ⟨w, hw, hcw⟩
  · exact absurd h hc
  · exact (asciiWords_spec hw).2 c hcw

/-- **The blanks of a collapsed text can be doubled.** -/
theorem exists_collapse_eq (h : ' ' ∈ collapse l) :
    ∃ m, collapse m = collapse l ∧ m ≠ collapse l ∧ isTrimmed m ∧ ∀ c ∈ m, c = ' ' ∨ c ∈ l := by
  have hspec := fun w (hw : w ∈ asciiWords l) => asciiWords_spec hw
  match hwords : asciiWords l with
  | [] =>
    rw [collapse, hwords] at h
    cases h
  | [w] =>
    rw [collapse, hwords, join_singleton] at h
    exact absurd ((hspec w (by simp [hwords])).2 ' ' h) (by decide)
  | w :: v :: ws =>
    rw [hwords] at hspec
    obtain ⟨hne, hw⟩ := hspec w mem_cons_self
    have hrest := fun u (hu : u ∈ v :: ws) => hspec u (mem_cons_of_mem w hu)
    have hcollapse : collapse l = w ++ ' ' :: join ' ' (v :: ws) := by
      rw [collapse, hwords, join_cons (by simp)]
    refine ⟨w ++ ' ' :: ' ' :: join ' ' (v :: ws), ?_, ?_, ?_, fun c hc => ?_⟩
    · have hblank : asciiWords (' ' :: join ' ' (v :: ws)) = v :: ws :=
        (words_append_left (a := [' ']) (forall_mem_singleton.2 rfl) _).trans
          (words_join rfl fun u hu => ⟨(hrest u hu).1, by simpa using (hrest u hu).2⟩)
      have : asciiWords (w ++ ' ' :: ' ' :: join ' ' (v :: ws)) = asciiWords l := by
        rw [hwords, asciiWords, words_append rfl, words_of_all (by simpa using hw) hne,
          singleton_append]
        exact congrArg _ hblank
      rw [collapse, this]
      rfl
    · rw [hcollapse]
      intro heq
      simpa using congrArg length heq
    · have htrim := isTrimmed_collapse l
      have hsplit : ∀ blanks : List Char, isTrimmed (w ++ blanks ++ join ' ' (v :: ws)) = _ :=
        isTrimmed_append hne (join_words_ne_nil (by simp) hrest)
      have h₁ := hsplit [' ']
      have h₂ := hsplit [' ', ' ']
      simp only [append_assoc, cons_append, nil_append] at h₁ h₂
      rw [h₂, ← h₁, ← hcollapse]
      exact htrim
    · refine mem_of_mem_collapse ?_
      rw [hcollapse]
      simp only [mem_append, mem_cons] at hc ⊢
      tauto

end Text
