import TemplateMarkup.Proofs.AttributeParts
import TemplateMarkup.Proofs.Lexing

/-! # Markup as a tree, and how it is printed

Elements with attributes, children and text, printed the plain way. A printed
tree says by itself where its tag blocks are. The tokens of the print are those
of its parts, so that the parts can be read one by one. -/

namespace TemplateMarkup

/-- Text and elements. The attributes of an element are names with values. -/
inductive Markup where
  | text (content : List Char)
  /-- An element between two tags. The name in the end tag may be written in another case. -/
  | paired (name endName : List Char) (attributes : List (List Char × List Char))
      (children : List Markup)
  | selfClosed (name : List Char) (attributes : List (List Char × List Char))
  | void (name : List Char) (attributes : List (List Char × List Char))

namespace Markup

/-- An attribute as it is printed, with the blank in front of it. -/
def printAttribute (a : List Char × List Char) : List Char :=
  ' ' :: (a.1 ++ '=' :: '"' :: (a.2 ++ ['"']))

/-- A start tag up to what ends it. -/
def printStart (name : List Char) (attributes : List (List Char × List Char)) : List Char :=
  '<' :: (name ++ attributes.flatMap printAttribute)

def printEnd (name : List Char) : List Char := '<' :: '/' :: (name ++ ['>'])

mutual

def print : Markup → List Char
  | text content => content
  | paired name endName attributes children =>
    printStart name attributes ++ '>' :: (printOf children ++ printEnd endName)
  | selfClosed name attributes => printStart name attributes ++ ['/', '>']
  | void name attributes => printStart name attributes ++ ['>']

def printOf : List Markup → List Char
  | [] => []
  | m :: ms => m.print ++ printOf ms

end

mutual

/-- The tag blocks of markup that is printed from an offset on: one for each element, which takes
exactly the element's print and has inside those of the children, in order, and behind them, if
there is an end tag, that of the end tag. -/
def spans (start : Nat) : Markup → List TagSpan
  | text _ => []
  | paired name endName attributes children =>
    let inner := start + Text.width (printStart name attributes ++ ['>'])
    let last := inner + Text.width (printOf children)
    let stop := start + Text.width (print (.paired name endName attributes children))
    [.span start stop (spansOf inner children ++ [.span last stop []])]
  | selfClosed name attributes =>
    [.span start (start + Text.width (print (.selfClosed name attributes))) []]
  | void name attributes => [.span start (start + Text.width (print (.void name attributes))) []]

def spansOf (start : Nat) : List Markup → List TagSpan
  | [] => []
  | m :: ms => m.spans start ++ spansOf (start + Text.width m.print) ms

end

/-! ## What can be printed -/

/-- The characters that an attribute's name may not have. -/
def keyStops : List Char := [' ', '\t', '\r', '\n', '=', '<', '>', '/', '"', '\'', '@']

/-- A name of an element: every token of it is text. -/
structure Named (name : List Char) : Prop where
  ne_nil : name ≠ []
  text : ∀ t ∈ Token.lex name, t.kind = .text

structure AttributeFits (a : List Char × List Char) : Prop where
  key_ne_nil : a.1 ≠ []
  key : ∀ c ∈ keyStops, c ∉ a.1
  quote : '"' ∉ a.2
  at_sign : '@' ∉ a.2

def isText : Markup → Bool
  | text _ => true
  | _ => false

mutual

/-- Texts are not empty and have neither tags nor code in them. Only void elements stand without an
end tag and without a slash, and no script has content. -/
def WellFormed : Markup → Prop
  | text content => content ≠ [] ∧ '<' ∉ content ∧ '@' ∉ content
  | paired name endName attributes children =>
    Named name ∧ Text.sameIgnoringCase endName name = true ∧
      ({} : Options).isVoidElement name = false ∧ ({} : Options).isScriptTag name = false ∧
      (∀ a ∈ attributes, AttributeFits a) ∧ WellFormedOf children
  | selfClosed name attributes => Named name ∧ ∀ a ∈ attributes, AttributeFits a
  | void name attributes =>
    Named name ∧ ({} : Options).isVoidElement name = true ∧ ∀ a ∈ attributes, AttributeFits a

/-- No text stands next to another. -/
def WellFormedOf : List Markup → Prop
  | [] => True
  | m :: ms => m.WellFormed ∧ (m.isText = true → ∀ n ∈ ms.head?, n.isText = false) ∧ WellFormedOf ms

end

/-- An element that may be outermost: it is not void, and its tags are tags there. -/
def IsRoot : Markup → Prop
  | paired name .. | selfClosed name _ => ({} : Options).isTextTag name = false
  | _ => False

/-! ## Tokens -/

def lt : Token := ⟨.openAngle, ['<']⟩
def gt : Token := ⟨.closeAngle, ['>']⟩
def slash : Token := ⟨.slash, ['/']⟩
def quote : Token := ⟨.doubleQuote, ['"']⟩

def writtenAttribute (a : List Char × List Char) : Cursor.WrittenAttribute where
  blank := ⟨.whitespace, [' ']⟩
  key := Token.lex a.1
  equals := ⟨.equals, ['=']⟩
  opener := quote
  value := Token.lex a.2
  closer := quote

def startTokens (name : List Char) (attributes : List (List Char × List Char)) : List Token :=
  lt :: (Token.lex name ++ attributes.flatMap fun a => (writtenAttribute a).tokens)

def startPieces (name : List Char) (attributes : List (List Char × List Char)) : List Piece :=
  .leaf lt :: ((Token.lex name).map .leaf ++ attributes.flatMap fun a => (writtenAttribute a).pieces)

def endTokens (name : List Char) : List Token := lt :: slash :: (Token.lex name ++ [gt])

def endPieces (name : List Char) : List Piece :=
  .leaf lt :: .leaf slash :: ((Token.lex name).map .leaf ++ [.leaf gt])

mutual

def tokens : Markup → List Token
  | text content => Token.lex content
  | paired name endName attributes children =>
    startTokens name attributes ++ gt :: (tokensOf children ++ endTokens endName)
  | selfClosed name attributes => startTokens name attributes ++ [slash, gt]
  | void name attributes => startTokens name attributes ++ [gt]

def tokensOf : List Markup → List Token
  | [] => []
  | m :: ms => m.tokens ++ tokensOf ms

end

mutual

/-- What stands in the tree for the markup. -/
def pieces : Markup → List Piece
  | text content => (Token.lex content).map .leaf
  | paired name endName attributes children =>
    [.part .tagBlock (startPieces name attributes ++ .leaf gt ::
      (piecesOf children ++ [.part .tagBlock (endPieces endName)]))]
  | selfClosed name attributes =>
    [.part .tagBlock (startPieces name attributes ++ [.leaf slash, .leaf gt])]
  | void name attributes => [.part .tagBlock (startPieces name attributes ++ [.leaf gt])]

def piecesOf : List Markup → List Piece
  | [] => []
  | m :: ms => m.pieces ++ piecesOf ms

end

variable {name : List Char} {attributes : List (List Char × List Char)} {rest : List Char}
  {a : List Char × List Char} {c : Char}

theorem solid_openAngle : Form.Solid '<' := Form.solid_of_whole .openAngle rfl (by decide)

theorem mem_keyStops {kind : Kind} (h : Token.Begins (Form.ofChar c) kind)
    (hk : kind.endsAttributeName = true) : c ∈ keyStops := by
  have hsub : ∀ c ∈ Token.starters kind, c ∈ keyStops := by
    cases kind <;> simp [Token.starters, keyStops]
  exact hsub c (Token.mem_starters h hk)

/-- A scan passes the tokens of a text without the characters it looks for and without code. -/
theorem passes_lex {kind : Kind} {content : List Char} (hk : kind.endsAttributeName = true)
    (hkind : ∀ c ∈ Token.starters kind, c ∉ content) (hat : '@' ∉ content) :
    ∀ t ∈ Token.lex content, Cursor.Passes kind t := fun t ht =>
  ⟨Token.kind_ne_of_mem_lex ht hk hkind,
    Token.kind_ne_of_mem_lex ht rfl (by simpa [Token.starters] using hat),
    Token.kind_ne_of_mem_lex ht rfl (by simpa [Token.starters] using hat),
    Token.kind_ne_of_mem_lex ht rfl (by simp [Token.starters])⟩

/-- The name of an attribute does not begin with a blank. -/
theorem head_key {key : List Char} (hne : key ≠ []) (h : ∀ c ∈ keyStops, c ∉ key) (more : List Char) :
    ∀ b ∈ (key ++ more).head?, Form.ofChar b ≠ .blanks := by
  obtain ⟨k, key, rfl⟩ := List.exists_cons_of_ne_nil hne
  rintro b ⟨⟩ hb
  have hbegins : Token.Begins (Form.ofChar k) .whitespace := by
    rw [hb]
    exact .same
  exact h k (mem_keyStops hbegins rfl) (List.mem_cons_self ..)

/-- Each token of the name of an attribute is part of one. -/
theorem lex_key {key : List Char} (h : ∀ c ∈ keyStops, c ∉ key) :
    ∀ t ∈ Token.lex key, t.kind.endsAttributeName = false := by
  intro t ht
  cases hk : t.kind.endsAttributeName with
  | false => rfl
  | true =>
    obtain ⟨b, hb, hbegins⟩ := Token.begins_of_mem_lex ht
    exact absurd hb (h b (mem_keyStops hbegins hk))

theorem AttributeFits.written (ha : AttributeFits a) : (writtenAttribute a).Fits where
  blank := rfl
  key_ne_nil h := by
    have htext := Token.textOf_lex a.1
    rw [show Token.lex a.1 = [] from h] at htext
    exact ha.key_ne_nil htext.symm
  key := lex_key ha.key
  equals := rfl
  opener := rfl
  value t ht := ⟨passes_lex rfl (by simpa [Token.starters] using ha.quote) ha.at_sign t ht,
    Token.text_ne_nil_of_mem_lex ht⟩
  closer := rfl

/-! ## The tokens of a print -/

theorem lex_attribute (ha : AttributeFits a) :
    Token.lex (printAttribute a ++ rest) = (writtenAttribute a).tokens ++ Token.lex rest := by
  have hequals : Form.Solid '=' := Form.solid_of_whole .equals rfl (by decide)
  have hquote : Form.Solid '"' := Form.solid_of_whole .doubleQuote rfl (by decide)
  have hblank := head_key ha.key_ne_nil ha.key ('=' :: '"' :: (a.2 ++ '"' :: rest))
  rw [printAttribute]
  simp only [List.cons_append, List.append_assoc, List.nil_append]
  rw [Token.lex_blank hblank, Token.lex_append_solid hequals, Token.lex_whole '=' .equals rfl,
    Token.lex_whole '"' .doubleQuote rfl, Token.lex_append_solid hquote,
    Token.lex_whole '"' .doubleQuote rfl]
  simp [Cursor.WrittenAttribute.tokens, Cursor.WrittenAttribute.body, writtenAttribute, quote]

theorem lex_attributes (has : ∀ a ∈ attributes, AttributeFits a) :
    Token.lex (attributes.flatMap printAttribute ++ rest) =
      (attributes.flatMap fun a => (writtenAttribute a).tokens) ++ Token.lex rest := by
  induction attributes with
  | nil => rfl
  | cons a as ih =>
    have hfirst := has a (List.mem_cons_self ..)
    have hrest := ih fun b hb => has b (List.mem_cons_of_mem a hb)
    rw [List.flatMap_cons, List.append_assoc, lex_attribute hfirst, hrest, List.flatMap_cons,
      List.append_assoc]

/-- A name ends in front of the attributes and in front of what ends a tag. -/
theorem lex_name (hn : Named name) (hsolid : Form.Solid c)
    (has : ∀ a ∈ attributes, AttributeFits a) :
    Token.lex (name ++ (attributes.flatMap printAttribute ++ c :: rest)) =
      Token.lex name ++ ((attributes.flatMap fun a => (writtenAttribute a).tokens) ++
        Token.lex (c :: rest)) := by
  rw [← lex_attributes has]
  cases attributes with
  | nil => exact Token.lex_append_solid hsolid
  | cons a as =>
    refine Token.lex_append_blank fun t ht => ?_
    rw [hn.text t (List.mem_of_getLast? ht)]
    decide

theorem lex_start (hn : Named name) (hsolid : Form.Solid c)
    (has : ∀ a ∈ attributes, AttributeFits a) :
    Token.lex (printStart name attributes ++ c :: rest) =
      startTokens name attributes ++ Token.lex (c :: rest) := by
  rw [printStart, List.cons_append, List.append_assoc, Token.lex_whole '<' .openAngle rfl,
    lex_name hn hsolid has, startTokens, List.cons_append, List.append_assoc]
  rfl

theorem lex_end (name rest : List Char) :
    Token.lex (printEnd name ++ rest) = endTokens name ++ Token.lex rest := by
  have hsolid : Form.Solid '>' := Form.solid_of_whole .closeAngle rfl (by decide)
  have hname : Token.lex (name ++ '>' :: rest) = Token.lex name ++ Token.lex ('>' :: rest) :=
    Token.lex_append_solid hsolid
  rw [printEnd, List.cons_append, List.cons_append, List.append_assoc,
    Token.lex_whole '<' .openAngle rfl, Token.lex_whole '/' .slash rfl]
  rw [List.singleton_append, hname, Token.lex_whole '>' .closeAngle rfl]
  simp [endTokens, lt, gt, slash]

/-- Another case of a name is a name. -/
theorem Named.of_same {endName : List Char} (hn : Named name)
    (h : Text.sameIgnoringCase endName name = true) : Named endName where
  ne_nil he := by
    have hfold := Text.sameIgnoringCase_iff.mp h
    rw [he] at hfold
    exact hn.ne_nil (List.map_eq_nil_iff.mp hfold.symm)
  text t ht := by
    have hkinds := Token.kinds_lex_of_sameIgnoringCase h
    have hmem : t.kind ∈ (Token.lex name).map Token.kind := by
      rw [← hkinds]
      exact List.mem_map_of_mem ht
    obtain ⟨u, hu, hkind⟩ := List.mem_map.mp hmem
    rw [← hkind, hn.text u hu]

/-- Whatever is no text begins with a `<`. -/
theorem print_of_not_text {m : Markup} (h : m.isText = false) : ∃ more, m.print = '<' :: more := by
  cases m with
  | text => cases h
  | paired | selfClosed | void => exact ⟨_, rfl⟩

mutual

/-- An element's print ends where its tokens end. -/
theorem lex_print : (m : Markup) → m.WellFormed → m.isText = false → (rest : List Char) →
    Token.lex (m.print ++ rest) = m.tokens ++ Token.lex rest
  | text _, _, h, _ => nomatch h
  | paired name endName attributes children, h, _, rest => by
    obtain ⟨hname, -, -, -, has, hchildren⟩ := h
    have hsolid : Form.Solid '>' := Form.solid_of_whole .closeAngle rfl (by decide)
    have hinner : Token.lex (printOf children ++ (printEnd endName ++ rest)) =
        tokensOf children ++ Token.lex (printEnd endName ++ rest) :=
      lex_printOf children hchildren _
    rw [print, List.append_assoc, List.cons_append, List.append_assoc, lex_start hname hsolid has,
      Token.lex_whole '>' .closeAngle rfl, hinner, lex_end, tokens]
    simp [gt]
  | selfClosed name attributes, h, _, rest => by
    obtain ⟨hname, has⟩ := h
    have hsolid : Form.Solid '/' := Form.solid_of_whole .slash rfl (by decide)
    rw [print, List.append_assoc]
    simp only [List.cons_append, List.nil_append]
    rw [lex_start hname hsolid has, Token.lex_whole '/' .slash rfl,
      Token.lex_whole '>' .closeAngle rfl, tokens]
    simp [slash, gt]
  | void name attributes, h, _, rest => by
    obtain ⟨hname, -, has⟩ := h
    have hsolid : Form.Solid '>' := Form.solid_of_whole .closeAngle rfl (by decide)
    rw [print, List.append_assoc, List.singleton_append, lex_start hname hsolid has,
      Token.lex_whole '>' .closeAngle rfl, tokens]
    simp [gt]

/-- Neighbours in front of a tag. -/
theorem lex_printOf : (ms : List Markup) → WellFormedOf ms → (rest : List Char) →
    Token.lex (printOf ms ++ '<' :: rest) = tokensOf ms ++ Token.lex ('<' :: rest)
  | [], _, rest => rfl
  | m :: ms, h, rest => by
    obtain ⟨hm, hnext, hms⟩ := h
    have hrest := lex_printOf ms hms rest
    rw [printOf, List.append_assoc, tokensOf, List.append_assoc, ← hrest]
    cases htext : m.isText with
    | false => exact lex_print m hm htext _
    | true =>
      -- a text ends in front of the tag that comes next
      obtain ⟨more, hmore⟩ : ∃ more, printOf ms ++ '<' :: rest = '<' :: more := by
        cases ms with
        | nil => exact ⟨rest, rfl⟩
        | cons n ms =>
          obtain ⟨more, hmore⟩ := print_of_not_text (hnext htext n rfl)
          exact ⟨more ++ printOf ms ++ '<' :: rest, by simp [printOf, hmore]⟩
      rw [hmore]
      cases m with
      | text content => exact Token.lex_append_solid solid_openAngle
      | paired | selfClosed | void => cases htext

end

/-! ## The tag blocks of a print -/

theorem textOf_attributePieces (a : List Char × List Char) :
    Piece.textOf (writtenAttribute a).pieces = printAttribute a := by
  simp [Cursor.WrittenAttribute.pieces, writtenAttribute, printAttribute, quote, Piece.textOf,
    Piece.text]

theorem tagSpansOf_attributePieces (a : List Char × List Char) (start : Nat) :
    Piece.tagSpansOf start (writtenAttribute a).pieces = [] := by
  simp [Cursor.WrittenAttribute.pieces, Piece.tagSpansOf, Piece.tagSpans, Piece.tagSpansOf_append]

theorem textOf_startPieces (name : List Char) (attributes : List (List Char × List Char)) :
    Piece.textOf (startPieces name attributes) = printStart name attributes := by
  have hall : Piece.textOf (attributes.flatMap fun a => (writtenAttribute a).pieces) =
      attributes.flatMap printAttribute := by
    induction attributes with
    | nil => rfl
    | cons a as ih => simp [textOf_attributePieces, ih]
  simp [startPieces, printStart, hall, Piece.textOf, Piece.text, lt]

/-- A start tag has no tag block inside. -/
theorem tagSpansOf_startPieces (name : List Char) (attributes : List (List Char × List Char))
    (start : Nat) : Piece.tagSpansOf start (startPieces name attributes) = [] := by
  have hall (start : Nat) :
      Piece.tagSpansOf start (attributes.flatMap fun a => (writtenAttribute a).pieces) = [] := by
    induction attributes generalizing start with
    | nil => rfl
    | cons a as ih => simp [Piece.tagSpansOf_append, tagSpansOf_attributePieces, ih]
  simp [startPieces, Piece.tagSpansOf, Piece.tagSpans, Piece.tagSpansOf_append, hall]

theorem textOf_endPieces (name : List Char) : Piece.textOf (endPieces name) = printEnd name := by
  simp [endPieces, printEnd, lt, gt, slash, Piece.textOf, Piece.text]

theorem tagSpansOf_endPieces (name : List Char) (start : Nat) :
    Piece.tagSpansOf start (endPieces name) = [] := by
  simp [endPieces, Piece.tagSpansOf, Piece.tagSpans, Piece.tagSpansOf_append]

mutual

theorem textOf_pieces : (m : Markup) → Piece.textOf m.pieces = m.print
  | text _ => by simp [pieces, print]
  | paired name endName attributes children => by
    have hchildren := textOf_piecesOf children
    simp [pieces, print, Piece.textOf, Piece.text, textOf_startPieces, textOf_endPieces, hchildren, gt]
  | selfClosed name attributes => by
    simp [pieces, print, Piece.textOf, Piece.text, textOf_startPieces, slash, gt]
  | void name attributes => by
    simp [pieces, print, Piece.textOf, Piece.text, textOf_startPieces, gt]

theorem textOf_piecesOf : (ms : List Markup) → Piece.textOf (piecesOf ms) = printOf ms
  | [] => rfl
  | m :: ms => by
    rw [piecesOf, printOf, Piece.textOf_append, textOf_pieces m, textOf_piecesOf ms]

end

mutual

theorem tagSpansOf_pieces : (m : Markup) → (start : Nat) →
    Piece.tagSpansOf start m.pieces = m.spans start
  | text _, start => by simp [pieces, spans]
  | paired name endName attributes children, start => by
    have htext := textOf_pieces (.paired name endName attributes children)
    have hchildren := tagSpansOf_piecesOf children
    rw [pieces, Piece.textOf, Piece.textOf, List.append_nil, Piece.text] at htext
    rw [pieces, Piece.tagSpansOf, Piece.tagSpansOf, Piece.tagSpans, if_pos rfl, htext,
      Piece.tagSpansOf_append, tagSpansOf_startPieces, textOf_startPieces]
    simp only [Piece.tagSpansOf, Piece.tagSpans, Piece.tagSpansOf_append, hchildren,
      textOf_piecesOf, tagSpansOf_endPieces, textOf_endPieces, if_pos, Piece.text]
    have hinner : start + Text.width (printStart name attributes) + Text.width gt.text =
        start + Text.width (printStart name attributes ++ ['>']) := by
      rw [Text.width_append, Nat.add_assoc]
      rfl
    have hstop : start + Text.width (printStart name attributes ++ ['>']) +
        Text.width (printOf children) + Text.width (printEnd endName) =
          start + Text.width (print (.paired name endName attributes children)) := by
      simp only [print, Text.width_append, Text.width]
      omega
    rw [spans, hinner, hstop]
    simp
  | selfClosed name attributes, start => by
    have htext := textOf_pieces (.selfClosed name attributes)
    rw [pieces, Piece.textOf, Piece.textOf, List.append_nil, Piece.text] at htext
    rw [pieces, Piece.tagSpansOf, Piece.tagSpansOf, Piece.tagSpans, if_pos rfl, htext,
      Piece.tagSpansOf_append, tagSpansOf_startPieces]
    rfl
  | void name attributes, start => by
    have htext := textOf_pieces (.void name attributes)
    rw [pieces, Piece.textOf, Piece.textOf, List.append_nil, Piece.text] at htext
    rw [pieces, Piece.tagSpansOf, Piece.tagSpansOf, Piece.tagSpans, if_pos rfl, htext,
      Piece.tagSpansOf_append, tagSpansOf_startPieces]
    rfl

theorem tagSpansOf_piecesOf : (ms : List Markup) → (start : Nat) →
    Piece.tagSpansOf start (piecesOf ms) = spansOf start ms
  | [], start => rfl
  | m :: ms, start => by
    rw [piecesOf, spansOf, Piece.tagSpansOf_append, textOf_pieces, tagSpansOf_pieces m,
      tagSpansOf_piecesOf ms]

end

end Markup

end TemplateMarkup
