import TemplateMarkup.Proofs.Lexing
import TemplateMarkup.Proofs.Parallel.Likeness

/-! # Sources with tokens that are alike

A token is a line ending if and only if it has a character of one. So two sources
that differ in other characters only have the same line endings, and where a
function that does not change what a character means to the lexer takes the two
to the same text, their tokens are alike one by one. -/

namespace TemplateMarkup

/-! ## Spellings -/

/-- What a token's kind says about its characters, as far as two parses depend on it. -/
structure Token.Spelled (t : Token) : Prop where
  lineEnd (c : Char) : c ∈ t.text → (c = '\r' ∨ c = '\n' ↔ t.kind = .newline)
  slash : t.kind = .slash → t.text = ['/']

namespace Form

variable {form longer : Form} {c : Char} {read : List Char}

theorem lineEnd_iff (c : Char) : c = '\r' ∨ c = '\n' ↔ (ofChar c).kind = .newline := by
  constructor
  · rintro (rfl | rfl) <;> rfl
  · unfold ofChar
    split <;> simp [kind]

theorem eq_slash_of_kind (h : (ofChar c).kind = .slash) : c = '/' := by
  revert h
  unfold ofChar
  split <;> simp [kind]

theorem spelled_ofChar (c : Char) : Token.Spelled ⟨(ofChar c).kind, [c]⟩ where
  lineEnd d hd := by
    rw [List.mem_singleton] at hd
    subst hd
    exact lineEnd_iff d
  slash hk := by rw [eq_slash_of_kind hk]

/-- A token that grows keeps to line endings or to other characters. -/
theorem kind_extend?_newline (h : form.extend? c = some longer) :
    longer.kind ≠ .slash ∧ (form.kind = .newline ↔ longer.kind = .newline) ∧
      (c = '\r' ∨ c = '\n' ↔ longer.kind = .newline) := by
  revert h
  cases form with
  | whole kind => exact nofun
  | blanks | run =>
    unfold extend?
    dsimp only
    split
    · next hc =>
      rintro ⟨⟩
      refine ⟨by decide, Iff.rfl, ?_⟩
      rw [lineEnd_iff, hc]
    · exact nofun
  | carriageReturn | hyphen | asterisk | atSign =>
    unfold extend?
    dsimp only
    split
    · next hc =>
      rintro ⟨⟩
      subst hc
      decide
    · exact nofun

end Form

namespace Token

variable {form : Form} {read source : List Char} {t : Token}

theorem Spelled.extend {c : Char} {longer : Form} (h : Spelled ⟨form.kind, read⟩)
    (he : form.extend? c = some longer) : Spelled ⟨longer.kind, read ++ [c]⟩ := by
  obtain ⟨hslash, hform, hc⟩ := Form.kind_extend?_newline he
  refine ⟨fun d hd => ?_, fun hk => absurd hk hslash⟩
  rcases List.mem_append.mp hd with hd | hd
  · exact (h.lineEnd d hd).trans hform
  · rw [List.mem_singleton] at hd
    subst hd
    exact hc

theorem spelled_of_mem_lex (h : t ∈ lex source) : t.Spelled := by
  obtain ⟨form, hkind, hspelled⟩ := exists_form_of_mem_lex
    (P := fun form text => Spelled ⟨form.kind, text⟩) Form.spelled_ofChar Spelled.extend h
  rw [← hkind] at hspelled
  exact hspelled

end Token

/-! ## Characters that are not told apart -/

namespace Likeness

/-- Texts may differ in characters that are folded to the same, but not in a line ending. -/
def folding (fold : Char → Char) (h : ∀ c, (fold c).toLower = c.toLower) : Likeness where
  fold := fold
  newline a b := a = b ∧ ∀ c ∈ a, c = '\r' ∨ c = '\n'
  toLower_fold := h
  newline_mem := by
    rintro a b c ⟨rfl, hlines⟩ hc
    exact hlines c (by simpa using hc)
  newline_or := fun h => .inl h.1

variable {fold : Char → Char} {h : ∀ c, (fold c).toLower = c.toLower} {t u : Token}
  {ts us : List Token}

theorem Alike.of_spelled (ht : t.Spelled) (hkind : u.kind = t.kind)
    (htext : t.text.map fold = u.text.map fold) (hline : t.kind = .newline → t.text = u.text) :
    (folding fold h).Alike t u where
  kind := hkind
  newline hk := ⟨hline hk, fun c hc => (ht.lineEnd c hc).mpr hk⟩
  text hk := ⟨htext, fun hc => hk ((ht.lineEnd _ hc).mp (.inr rfl))⟩
  slash := ht.slash

/-- A source is like itself. -/
theorem alikes_lex_self (source : List Char) :
    (folding fold h).Alikes (Token.lex source) (Token.lex source) :=
  List.forall₂_same.mpr fun _ ht => .of_spelled (Token.spelled_of_mem_lex ht) rfl rfl fun _ => rfl

/-- All of a text is the same once it is folded, the line endings included. -/
theorem Alikes.folded (hs : (folding fold h).Alikes ts us) :
    (Token.textOf ts).map fold = (Token.textOf us).map fold := by
  induction hs with
  | nil => rfl
  | @cons t u _ _ ht _ ih =>
    have htext : t.text.map fold = u.text.map fold := by
      by_cases hk : t.kind = .newline
      · rw [(ht.newline hk).1]
      · exact (ht.text hk).1
    rw [Token.textOf_cons, Token.textOf_cons, List.map_append, List.map_append, htext, ih]

theorem isBlank_toLower (c : Char) : Text.isBlank c.toLower = Text.isBlank c :=
  Text.apply_toLower Text.isBlank (by decide) c

theorem foldCase_trim (a : List Char) :
    Text.foldCase (Text.trim a) = Text.trim (Text.foldCase a) := by
  have hblank : Text.isBlank ∘ Char.toLower = Text.isBlank := funext isBlank_toLower
  simp only [Text.foldCase, Text.trim, ← List.map_reverse, List.dropWhile_map, hblank]

theorem Alikes.sameTrimmed (hs : (folding fold h).Alikes ts us) (value : List Char) :
    Text.sameIgnoringCase (Text.trim (Token.textOf us)) value =
      Text.sameIgnoringCase (Text.trim (Token.textOf ts)) value := by
  have hsame : (folding fold h).Same (Token.textOf ts) (Token.textOf us) := hs.folded
  rw [Text.sameIgnoringCase, Text.sameIgnoringCase, foldCase_trim, foldCase_trim, hsame.foldCase_eq]

/-- Alike tokens are equally wide. -/
theorem Alikes.widthOf_eq (hs : (folding fold h).Alikes ts us) :
    Token.widthOf us = Token.widthOf ts := by
  have hsame : (folding fold h).Same (Token.textOf ts) (Token.textOf us) := hs.folded
  rw [Token.widthOf_eq, Token.widthOf_eq, hsame.width_eq]

end Likeness

namespace Comparison

/-- Two parses of sources that differ in folded characters. -/
def folding (fold : Char → Char) (h : ∀ c, (fold c).toLower = c.toLower) (source : List Char)
    (options : Options) (editing caseSensitive : Bool)
    (hd : editing = true → options.designTime = false)
    (hc : caseSensitive = true → ∀ c, fold c = c) : Comparison where
  toLikeness := .folding fold h
  source := source
  options := options
  editing := editing
  caseSensitive := caseSensitive
  designTime := hd
  fold_eq := hc
  scriptType hs := hs.sameTrimmed _

variable {fold : Char → Char} {h : ∀ c, (fold c).toLower = c.toLower} {source : List Char}
  {options : Options} {editing caseSensitive : Bool}
  {hd : editing = true → options.designTime = false} {hc : caseSensitive = true → ∀ c, fold c = c}

/-- Then reports are about the same range. -/
theorem Reports.range_eq {d e : Diagnostic}
    (hr : (folding fold h source options editing caseSensitive hd hc).Reports d e) :
    e.range = d.range := by
  obtain ⟨-, ⟨ts, us, hs, -, hstart, hstart'⟩, width, hstop, hstop'⟩ := hr
  have hsame : e.range.start = d.range.start := by rw [hstart, hstart', hs.widthOf_eq]
  have hend : e.range.stop = d.range.stop := by omega
  cases hde : d.range
  cases hee : e.range
  simp_all

/-- The options of both parses are the same if neither is made at design time alone. -/
theorem otherOptions_eq {k : Comparison} (he : k.editing = false) : k.otherOptions = k.options := by
  rw [otherOptions, he, Bool.or_false]

end Comparison

end TemplateMarkup
