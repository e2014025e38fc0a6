import Mathlib.Data.Bool.AllAny
import TemplateMarkup.Proofs.Lexing

/-! # The token table, and maximal munch

The table says which texts are tokens, and of which kind. A split of a source into
tokens of the table is maximal munch if no token could go on into the text behind
it. Every source has exactly one such split, and this is the one that `lex` makes. -/

namespace TemplateMarkup

namespace Token

/-! ## The table -/

/-- The kinds of tokens that are spelled in a few ways, each with its spellings. -/
def words : List (Kind × List Char) :=
  [(.newline, ['\r', '\n']), (.newline, ['\n']), (.newline, ['\r']), (.openAngle, ['<']),
   (.closeAngle, ['>']), (.slash, ['/']), (.bang, ['!']), (.questionMark, ['?']),
   (.transition, ['@']), (.commentOpen, ['@', '*']), (.commentClose, ['*', '@']),
   (.doubleHyphen, ['-', '-']), (.openBracket, ['[']), (.closeBracket, [']']), (.equals, ['=']),
   (.doubleQuote, ['"']), (.singleQuote, ['\'']), (.colon, [':']), (.text, ['-']), (.text, ['*'])]

/-- Spaces and tabs. -/
def blankChars : List Char := [' ', '\t']

/-- The characters that no run of text has. -/
def markChars : List Char :=
  [' ', '\t', '\r', '\n', '<', '>', '/', '!', '?', '@', '*', '-', '[', ']', '=', ':', '"', '\'']

/-- The texts that are tokens of a kind. -/
inductive Belongs : Kind → List Char → Prop
  | word {kind : Kind} {text : List Char} : (kind, text) ∈ words → Belongs kind text
  | blanks {text : List Char} : text ≠ [] → (∀ c ∈ text, c ∈ blankChars) → Belongs .whitespace text
  | run {text : List Char} : text ≠ [] → (∀ c ∈ text, c ∉ markChars) → Belongs .text text

/-- The table has the token's text, and only under the token's kind. -/
structure InTable (t : Token) : Prop where
  text_ne_nil : t.text ≠ []
  belongs_iff : ∀ kind, Belongs kind t.text ↔ kind = t.kind

/-- Tokens of the table, none of which could take in more of the text behind it. -/
def MaximalMunch : List Token → Prop
  | [] => True
  | t :: ts => t.InTable ∧
      (∀ more, more ≠ [] → more <+: textOf ts → ∀ kind, ¬ Belongs kind (t.text ++ more)) ∧
      MaximalMunch ts

end Token

/-! ## Forms and the table -/

namespace Form

open Token

variable {form longer : Form} {c : Char} {text more : List Char} {kind : Kind}

/-- The form of a token that goes on with these characters, if it can take all of them. -/
def read? (form : Form) : List Char → Option Form
  | [] => some form
  | c :: rest => (form.extend? c).bind (·.read? rest)

/-- The form of a text that is one token. -/
def ofText? : List Char → Option Form
  | [] => none
  | c :: rest => (ofChar c).read? rest

theorem read?_append : form.read? (text ++ more) = (form.read? text).bind (·.read? more) := by
  induction text generalizing form with
  | nil => rfl
  | cons c text ih =>
    rw [List.cons_append, read?, read?, Option.bind_assoc]
    exact congrArg _ (funext fun _ => ih)

/-- A text that goes on behind a token is one token if the token can take it in. -/
theorem ofText?_append (h : ofText? text = some form) : ofText? (text ++ more) = form.read? more := by
  cases text with
  | nil => cases h
  | cons c text =>
    rw [List.cons_append, ofText?, read?_append, show (ofChar c).read? text = some form from h]
    rfl

theorem ofText?_snoc (h : ofText? text = some form) (he : form.extend? c = some longer) :
    ofText? (text ++ [c]) = some longer := by
  rw [ofText?_append h, read?, he]
  rfl

theorem ofChar_eq_blanks : ofChar c = blanks ↔ c ∈ blankChars := by
  unfold ofChar blankChars
  split <;> simp_all

theorem ofChar_eq_run : ofChar c = run ↔ c ∉ markChars := by
  unfold ofChar markChars
  split <;> simp_all

/-- Characters that begin a token in a form and leave it in that form. -/
theorem ofText?_same (hne : text ≠ []) (hfirst : ∀ c ∈ text, ofChar c = form)
    (hmore : ∀ c ∈ text, form.extend? c = some form) : ofText? text = some form := by
  have hread (text : List Char) (h : ∀ c ∈ text, form.extend? c = some form) :
      form.read? text = some form := by
    induction text with
    | nil => rfl
    | cons c text ih =>
      obtain ⟨hc, htext⟩ := List.forall_mem_cons.mp h
      rw [read?, hc]
      exact ih htext
  obtain ⟨c, text, rfl⟩ := List.exists_cons_of_ne_nil hne
  rw [ofText?, hfirst c (List.mem_cons_self ..)]
  exact hread text (List.forall_mem_cons.mp hmore).2

theorem ofText?_of_belongs (h : Belongs kind text) : (ofText? text).map Form.kind = some kind := by
  cases h with
  | word hword =>
    have hall : ∀ word ∈ words, (ofText? word.2).map Form.kind = some word.1 := by decide
    exact hall _ hword
  | blanks hne hall =>
    have hblank : ∀ c ∈ text, ofChar c = blanks := fun c hc => ofChar_eq_blanks.mpr (hall c hc)
    rw [ofText?_same hne hblank fun c hc => if_pos (hblank c hc)]
    rfl
  | run hne hall =>
    have hrun : ∀ c ∈ text, ofChar c = run := fun c hc => ofChar_eq_run.mpr (hall c hc)
    rw [ofText?_same hne hrun fun c hc => extend?_run (hrun c hc)]
    rfl

/-- The texts that leave a token in a form. -/
inductive Spells : Form → List Char → Prop
  | blanks {text : List Char} : text ≠ [] → (∀ c ∈ text, c ∈ blankChars) → Spells .blanks text
  | run {text : List Char} : text ≠ [] → (∀ c ∈ text, c ∉ markChars) → Spells .run text
  | carriageReturn : Spells .carriageReturn ['\r']
  | hyphen : Spells .hyphen ['-']
  | asterisk : Spells .asterisk ['*']
  | atSign : Spells .atSign ['@']
  | whole {kind : Kind} {text : List Char} : (kind, text) ∈ words → Spells (.whole kind) text

theorem spells_ofChar (c : Char) : Spells (ofChar c) [c] := by
  by_cases hrun : ofChar c = .run
  · rw [hrun]
    exact .run (List.cons_ne_nil _ _) (List.forall_mem_singleton.mpr (ofChar_eq_run.mp hrun))
  · revert hrun
    unfold ofChar
    split <;> intro hrun <;> first
      | exact absurd rfl hrun
      | exact .blanks (by simp) (by simp [blankChars])
      | exact .whole (by simp [words])
      | constructor

theorem forall_mem_snoc {P : Char → Prop} (h : ∀ d ∈ text, P d) (hc : P c) :
    ∀ d ∈ text ++ [c], P d := by
  simpa [or_imp, forall_and] using ⟨h, hc⟩

theorem Spells.extend (h : Spells form text) (he : form.extend? c = some longer) :
    Spells longer (text ++ [c]) := by
  cases h with
  | whole => cases he
  | blanks hne hall =>
    rw [extend?, Option.ite_none_right_eq_some] at he
    obtain ⟨hc, ⟨⟩⟩ := he
    exact .blanks (by simp) (forall_mem_snoc hall (ofChar_eq_blanks.mp hc))
  | run hne hall =>
    rw [extend?, Option.ite_none_right_eq_some] at he
    obtain ⟨hc, ⟨⟩⟩ := he
    exact .run (by simp) (forall_mem_snoc hall (ofChar_eq_run.mp hc))
  | carriageReturn | hyphen | asterisk | atSign =>
    rw [extend?, Option.ite_none_right_eq_some] at he
    obtain ⟨rfl, ⟨⟩⟩ := he
    exact .whole (by decide)

theorem Spells.belongs (h : Spells form text) : Belongs form.kind text := by
  cases h with
  | blanks hne hall => exact .blanks hne hall
  | run hne hall => exact .run hne hall
  | whole hword => exact .word hword
  | carriageReturn | hyphen | asterisk | atSign => exact .word (by decide)

end Form

/-! ## The split that the lexer makes -/

namespace Token

open Form

variable {t : Token} {ts us : List Token} {form : Form} {c : Char} {read rest text : List Char}
  {kind : Kind}

/-- No text has two kinds. -/
theorem Belongs.unique {other : Kind} (h : Belongs kind text) (h' : Belongs other text) :
    kind = other :=
  Option.some.inj ((ofText?_of_belongs h).symm.trans (ofText?_of_belongs h'))

theorem Belongs.text_ne_nil (h : Belongs kind text) : text ≠ [] := by
  rintro rfl
  cases ofText?_of_belongs h

/-! ### Characters of tokens -/

/-- The characters that are tokens of their own. -/
def soloChars : List Char := ['<', '>', '/', '!', '?', '[', ']', '=', ':', '"', '\'']

theorem Belongs.eq_singleton (h : Belongs kind text) (hmem : c ∈ text) (hc : c ∈ soloChars) :
    text = [c] := by
  cases h with
  | word hword =>
    have hall : ∀ c ∈ soloChars, ∀ word ∈ words, c ∈ word.2 → word.2 = [c] :=
      List.all_iff_forall_prop.mp (by decide)
    exact hall c hc _ hword hmem
  | blanks _ hall =>
    have hblank : ∀ c ∈ soloChars, c ∉ blankChars := List.all_iff_forall_prop.mp (by decide)
    exact absurd (hall c hmem) (hblank c hc)
  | run _ hall =>
    have hmark : soloChars ⊆ markChars := by decide
    exact absurd (hmark hc) (hall c hmem)

/-- A token with a character of a run is a run. -/
theorem Belongs.run_of_mem (h : Belongs kind text) (hmem : c ∈ text) (hc : c ∉ markChars) :
    kind = .text ∧ ∀ d ∈ text, d ∉ markChars := by
  cases h with
  | word hword =>
    have hall : ∀ word ∈ words, word.2 ⊆ markChars := by decide
    exact absurd (hall _ hword hmem) hc
  | blanks _ hall =>
    have hblank : blankChars ⊆ markChars := by decide
    exact absurd (hblank (hall c hmem)) hc
  | run _ hall => exact ⟨rfl, hall⟩

/-- A kind that is spelled in one way. -/
theorem Belongs.eq_of_words {word : List Char} (h : Belongs kind text)
    (hwords : ∀ entry ∈ words, entry.1 = kind → entry.2 = word) (hblank : kind ≠ .whitespace)
    (hrun : kind ≠ .text) : text = word := by
  cases h with
  | word hword => exact hwords _ hword rfl
  | blanks => exact absurd rfl hblank
  | run => exact absurd rfl hrun

/-! ### Maximal munch -/

/-- A token of the table is known by its kind and its text. -/
theorem inTable_iff : t.InTable ↔ Belongs t.kind t.text :=
  ⟨fun h => (h.belongs_iff _).mpr rfl,
    fun h => ⟨h.text_ne_nil, fun _ => ⟨fun h' => h'.unique h, fun hk => hk ▸ h⟩⟩⟩

/-- Where a form refuses a character, the table has no text that goes on with it. -/
theorem not_belongs_append (htext : ofText? text = some form) (hc : form.extend? c = none)
    (more : List Char) : ¬ Belongs kind (text ++ c :: more) := by
  intro h
  have hkind := ofText?_of_belongs h
  rw [ofText?_append htext, read?, hc] at hkind
  cases hkind

theorem maximalMunch_lexFrom (htext : ofText? read.reverse = some form)
    (hspells : Spells form read.reverse) : MaximalMunch (lexFrom form read rest) := by
  induction rest generalizing form read with
  | nil =>
    refine ⟨inTable_iff.mpr hspells.belongs, fun more hne hmore => ?_, trivial⟩
    exact absurd (List.prefix_nil.mp hmore) hne
  | cons c rest ih =>
    rw [lexFrom]
    cases he : form.extend? c with
    | some longer =>
      refine ih ?_ ?_ <;> rw [List.reverse_cons]
      · exact ofText?_snoc htext he
      · exact hspells.extend he
    | none =>
      refine ⟨inTable_iff.mpr hspells.belongs, fun more hne hmore => ?_, ih rfl (spells_ofChar c)⟩
      rw [textOf_lexFrom, List.reverse_singleton, List.singleton_append] at hmore
      obtain ⟨d, more, rfl⟩ := List.exists_cons_of_ne_nil hne
      obtain ⟨rfl, -⟩ := List.cons_prefix_cons.mp hmore
      exact fun kind => not_belongs_append htext he more

/-- No token of a source could be longer. -/
theorem maximalMunch_lex (source : List Char) : MaximalMunch (lex source) := by
  cases source with
  | nil => trivial
  | cons c rest => exact maximalMunch_lexFrom rfl (spells_ofChar c)

/-- A token that cannot be longer is as long as any token that begins there. -/
theorem text_prefix
    (hmax : ∀ more, more ≠ [] → more <+: textOf ts → ∀ kind, ¬ Belongs kind (t.text ++ more))
    (htext : textOf (t :: ts) = text ++ rest) (h : Belongs kind text) : text <+: t.text := by
  rcases List.prefix_or_prefix_of_prefix ⟨rest, htext.symm⟩ ⟨textOf ts, rfl⟩ with hle | ⟨more, rfl⟩
  · exact hle
  · rw [textOf_cons, List.append_assoc] at htext
    by_cases hne : more = []
    · simp [hne]
    · exact absurd h (hmax more hne ⟨rest, (List.append_cancel_left htext).symm⟩ kind)

/-- A text has one split that is maximal munch. -/
theorem MaximalMunch.unique (h : MaximalMunch ts) (h' : MaximalMunch us)
    (htext : textOf ts = textOf us) : ts = us := by
  induction ts generalizing us with
  | nil =>
    cases us with
    | nil => rfl
    | cons u us =>
      have hnil : u.text = [] := (List.append_eq_nil_iff.mp htext.symm).1
      exact absurd hnil h'.1.text_ne_nil
  | cons t ts ih =>
    cases us with
    | nil =>
      have hnil : t.text = [] := (List.append_eq_nil_iff.mp htext).1
      exact absurd hnil h.1.text_ne_nil
    | cons u us =>
      obtain ⟨ht, htmax, hts⟩ := h
      obtain ⟨hu, humax, hus⟩ := h'
      have hshort : u.text <+: t.text := text_prefix htmax htext (inTable_iff.mp hu)
      have hlong : t.text <+: u.text := text_prefix humax htext.symm (inTable_iff.mp ht)
      have hsame : t.text = u.text := hlong.eq_of_length_le hshort.length_le
      have hkind : t.kind = u.kind := (hu.belongs_iff _).mp (hsame ▸ inTable_iff.mp ht)
      have hfirst : t = u := congr (congrArg mk hkind) hsame
      rw [textOf_cons, textOf_cons, hsame] at htext
      rw [hfirst, ih hts hus (List.append_cancel_left htext)]

theorem MaximalMunch.suffix (h : MaximalMunch ts) (hs : us <:+ ts) : MaximalMunch us := by
  induction ts with
  | nil => rwa [List.suffix_nil.mp hs]
  | cons t ts ih =>
    rcases List.suffix_cons_iff.mp hs with rfl | hs
    · exact h
    · exact ih h.2.2 hs

/-- The last tokens of a source are the tokens of its last text. -/
theorem lex_textOf_suffix (h : ts <:+ lex text) : lex (textOf ts) = ts :=
  (maximalMunch_lex _).unique ((maximalMunch_lex text).suffix h) (textOf_lex _)

/-- The tokens of a source are its only split that is maximal munch, and so any tokens of which none
could be longer are those of their text. -/
theorem lex_eq_iff (source : List Char) (ts : List Token) :
    lex source = ts ↔ textOf ts = source ∧ MaximalMunch ts := by
  constructor
  · rintro rfl
    exact ⟨textOf_lex source, maximalMunch_lex source⟩
  · rintro ⟨rfl, h⟩
    exact (maximalMunch_lex _).unique h (textOf_lex _)

/-- Pairs are made from the left, so an odd run of hyphens ends in a token of one. -/
example : lex "---\r\n".toList =
    [⟨.doubleHyphen, ['-', '-']⟩, ⟨.text, ['-']⟩, ⟨.newline, ['\r', '\n']⟩] := rfl

end Token

end TemplateMarkup
