import TemplateMarkup.Token

/-!
Splitting a source into tokens.

Every beginning of a token is itself a token, so the longest match needs one character of lookahead:
a token grows until its `Form` refuses the next character. `textOf_lex` says that nothing is lost.
-/

namespace TemplateMarkup

/-- How a token's text is spelled, as far as the next character matters. -/
inductive Form where
  /-- A run of spaces and tabs. -/
  | blanks
  /-- A carriage return, which a line feed may join. -/
  | carriageReturn
  /-- One hyphen, which a second may join. -/
  | hyphen
  /-- An asterisk, which an `@` may join. -/
  | asterisk
  /-- An `@`, which an asterisk may join. -/
  | atSign
  /-- A run of characters without a meaning of their own. -/
  | run
  /-- A token that nothing extends. -/
  | whole (kind : Kind)
  deriving DecidableEq, Repr

namespace Form

/-- The form of a token that starts with the character. -/
def ofChar : Char → Form
  | ' ' | '\t' => blanks
  | '\r' => carriageReturn
  | '\n' => whole .newline
  | '-' => hyphen
  | '*' => asterisk
  | '@' => atSign
  | '<' => whole .openAngle
  | '>' => whole .closeAngle
  | '/' => whole .slash
  | '!' => whole .bang
  | '?' => whole .questionMark
  | '[' => whole .openBracket
  | ']' => whole .closeBracket
  | '=' => whole .equals
  | '"' => whole .doubleQuote
  | '\'' => whole .singleQuote
  | ':' => whole .colon
  | _ => run

/-- The form after one more character, if the token can take it. -/
def extend? (form : Form) (c : Char) : Option Form :=
  match form with
  | blanks => if ofChar c = blanks then some blanks else none
  | carriageReturn => if c = '\n' then some (whole .newline) else none
  | hyphen => if c = '-' then some (whole .doubleHyphen) else none
  | asterisk => if c = '@' then some (whole .commentClose) else none
  | atSign => if c = '*' then some (whole .commentOpen) else none
  | run => if ofChar c = run then some run else none
  | whole _ => none

/-- The kind of a token that ends in this form. -/
def kind : Form → Kind
  | blanks => .whitespace
  | carriageReturn => .newline
  | hyphen | asterisk | run => .text
  | atSign => .transition
  | whole k => k

end Form

namespace Token

/-- Continues a token whose characters so far, the last one first, are `read`. -/
def lexFrom (form : Form) (read : List Char) : List Char → List Token
  | [] => [⟨form.kind, read.reverse⟩]
  | c :: rest =>
    match form.extend? c with
    | some longer => lexFrom longer (c :: read) rest
    | none => ⟨form.kind, read.reverse⟩ :: lexFrom (.ofChar c) [c] rest

/-- The tokens of a source, each as long as it can be. -/
def lex : List Char → List Token
  | [] => []
  | c :: rest => lexFrom (.ofChar c) [c] rest

theorem textOf_lexFrom (form : Form) (read rest : List Char) :
    textOf (lexFrom form read rest) = read.reverse ++ rest := by
  induction rest generalizing form read with
  | nil => simp [lexFrom]
  | cons c rest ih =>
    simp only [lexFrom]
    split <;> simp [ih]

/-- The tokens of a source spell it out. -/
@[simp] theorem textOf_lex (source : List Char) : textOf (lex source) = source := by
  cases source <;> simp [lex, textOf_lexFrom]

theorem text_ne_nil_of_mem_lexFrom {form : Form} {read rest : List Char} (hr : read ≠ [])
    {t : Token} (h : t ∈ lexFrom form read rest) : t.text ≠ [] := by
  induction rest generalizing form read with
  | nil =>
    rw [lexFrom, List.mem_singleton] at h
    simpa [h] using hr
  | cons c rest ih =>
    simp only [lexFrom] at h
    split at h
    · exact ih (List.cons_ne_nil _ _) h
    · rcases List.mem_cons.mp h with rfl | h
      · simpa using hr
      · exact ih (List.cons_ne_nil _ _) h

/-- No token of a source is empty. -/
theorem text_ne_nil_of_mem_lex {source : List Char} {t : Token} (h : t ∈ lex source) :
    t.text ≠ [] := by
  cases source with
  | nil => cases h
  | cons c rest => exact text_ne_nil_of_mem_lexFrom (List.cons_ne_nil _ _) h

theorem eq_of_kind_ofChar {c : Char} (h : (Form.ofChar c).kind = .openAngle) : c = '<' := by
  revert h
  unfold Form.ofChar
  split <;> simp [Form.kind]

theorem kind_extend? {form longer : Form} {c : Char} (h : form.extend? c = some longer) :
    longer.kind ≠ .openAngle := by
  revert h
  cases form with
  | whole kind => exact nofun
  | blanks | carriageReturn | hyphen | asterisk | atSign | run =>
    unfold Form.extend?
    dsimp only
    split
    · rintro ⟨⟩
      decide
    · rintro ⟨⟩

theorem text_of_openAngle_of_mem_lexFrom {form : Form} {read rest : List Char}
    (hr : form.kind = .openAngle → read = ['<']) {t : Token} (h : t ∈ lexFrom form read rest)
    (hk : t.kind = .openAngle) : t.text = ['<'] := by
  induction rest generalizing form read with
  | nil =>
    rw [lexFrom, List.mem_singleton] at h
    subst h
    simp [hr hk]
  | cons c rest ih =>
    simp only [lexFrom] at h
    split at h
    · next longer he => exact ih (fun hl => absurd hl (kind_extend? he)) h
    · rcases List.mem_cons.mp h with rfl | h
      · simp [hr hk]
      · exact ih (fun hl => by rw [eq_of_kind_ofChar hl]) h

/-- A token of this kind is the one character. -/
theorem text_of_openAngle_of_mem_lex {source : List Char} {t : Token} (h : t ∈ lex source)
    (hk : t.kind = .openAngle) : t.text = ['<'] := by
  cases source with
  | nil => cases h
  | cons c rest =>
    exact text_of_openAngle_of_mem_lexFrom (fun hl => by rw [eq_of_kind_ofChar hl]) h hk

end Token

end TemplateMarkup
