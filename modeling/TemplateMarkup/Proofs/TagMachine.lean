import TemplateMarkup.Proofs.Lexing
import TemplateMarkup.Proofs.TagParts

/-! # Sequences of tags, and a stack machine that reads them

A sequence of start and end tags without attributes, and without text between
them, is read by a machine whose only memory is the stack of open elements.
The machine knows no cursor and no tree: it says where the tag blocks are, which
diagnostics there are and how many tags are read. -/

namespace TemplateMarkup

/-- A start tag or an end tag with nothing in it but a name. -/
structure TagEvent where
  closing : Bool := false
  /-- Whether a `!` stands before the name. -/
  escaped : Bool := false
  name : List Char
  deriving DecidableEq, Repr

/-- An element that waits for its end tag. -/
structure OpenElement where
  name : List Char
  start : Nat
  /-- The tag blocks in it so far. -/
  inner : List TagSpan

/-- What a machine has read up to an offset. -/
structure TagMachine where
  offset : Nat := 0
  /-- The innermost element first. -/
  stack : List OpenElement := []
  /-- The tag blocks outside of every open element. -/
  spans : List TagSpan := []
  reports : List Diagnostic := []

namespace TagEvent

/-- The name with its `!`, as diagnostics quote it and as end tags must repeat it. -/
def fullName (e : TagEvent) : List Char := if e.escaped then '!' :: e.name else e.name

/-- The tag as it is written. -/
def text (e : TagEvent) : List Char :=
  '<' :: ((if e.closing then ['/'] else []) ++ (e.fullName ++ ['>']))

/-- The name has nothing special about it: its characters have no meaning of their own, it is not
the name of a special element, and with a `!` in front it is no document type. -/
structure Plain (e : TagEvent) : Prop where
  ne_nil : e.name ≠ []
  run : ∀ c ∈ e.name, Form.ofChar c = .run
  not_doctype : e.escaped = true → Text.sameIgnoringCase e.name "DOCTYPE".toList = false
  not_void : e.escaped = false → ({} : Options).isVoidElement e.name = false
  not_script : e.escaped = false → ({} : Options).isScriptTag e.name = false
  not_text : e.escaped = false → ({} : Options).isTextTag e.name = false

instance (e : TagEvent) : Decidable e.Plain :=
  decidable_of_iff (e.name ≠ [] ∧ e.name.all (Form.ofChar · = .run) ∧
    (e.escaped = true → Text.sameIgnoringCase e.name "DOCTYPE".toList = false) ∧
    (e.escaped = false → ({} : Options).isVoidElement e.name = false) ∧
    (e.escaped = false → ({} : Options).isScriptTag e.name = false) ∧
    (e.escaped = false → ({} : Options).isTextTag e.name = false))
    ⟨fun ⟨h₁, h₂, h₃, h₄, h₅, h₆⟩ => ⟨h₁, by simpa using h₂, h₃, h₄, h₅, h₆⟩,
      fun ⟨h₁, h₂, h₃, h₄, h₅, h₆⟩ => ⟨h₁, by simpa using h₂, h₃, h₄, h₅, h₆⟩⟩

end TagEvent

namespace TagMachine

variable {s : TagMachine} {e : TagEvent}

/-- Tag blocks are part of the innermost open element. -/
def add (s : TagMachine) (spans : List TagSpan) : TagMachine :=
  match s.stack with
  | [] => { s with spans := s.spans ++ spans }
  | o :: rest => { s with stack := { o with inner := o.inner ++ spans } :: rest }

/-- The innermost open element ends here. -/
def pop (s : TagMachine) : TagMachine :=
  match s.stack with
  | [] => s
  | o :: rest => { s with stack := rest }.add [.span o.start s.offset o.inner]

def report (s : TagMachine) (problem : Problem) (range : Range) : TagMachine :=
  { s with reports := s.reports ++ [⟨problem, range⟩] }

/-- The innermost open element ends here without an end tag. -/
def skip (s : TagMachine) : TagMachine :=
  match s.stack with
  | [] => s
  | o :: _ => (s.report (.missingEndTag o.name) (.ofText (o.start + 1) o.name)).pop

def skips : Nat → TagMachine → TagMachine
  | 0, s => s
  | n + 1, s => skips n s.skip

def pops : Nat → TagMachine → TagMachine
  | 0, s => s
  | n + 1, s => pops n s.pop

/-- How many of the open elements an end tag finds before the first of its name. -/
def unmatched (name : List Char) (stack : List OpenElement) : Nat :=
  (stack.takeWhile fun o => !Text.sameIgnoringCase o.name name).length

/-- A start tag opens an element. -/
def push (s : TagMachine) (e : TagEvent) : TagMachine :=
  { s with
    stack := ⟨e.fullName, s.offset, []⟩ :: s.stack
    offset := s.offset + Text.width e.text }

/-- An end tag without an element is reported; otherwise the elements in front of the one of its
name are, from the inside out, or all of them. -/
def unwind (s : TagMachine) (e : TagEvent) : TagMachine :=
  if s.stack.isEmpty then
    s.report (.unexpectedEndTag e.fullName) (.ofText (s.offset + 2) e.fullName)
  else skips (unmatched e.fullName s.stack) s

/-- An end tag's own block is the last in the element that it ends. -/
def close (s : TagMachine) (e : TagEvent) : TagMachine :=
  let stop := s.offset + Text.width e.text
  { (s.unwind e).add [.span s.offset stop []] with offset := stop }.pop

def step (s : TagMachine) (e : TagEvent) : TagMachine :=
  if e.closing then s.close e else s.push e

/-- Reads tags up to the first that leaves no element open, and says which tags come after it. -/
def run (s : TagMachine) : List TagEvent → TagMachine × List TagEvent
  | [] => (s, [])
  | e :: es => if (s.step e).stack.isEmpty then (s.step e, es) else (s.step e).run es

/-- At the end of the input every open element ends, and the innermost one is reported. -/
def finish (s : TagMachine) : TagMachine := pops (s.stack.length - 1) s.skip

/-- Reads a whole sequence, and says which of its tags are not part of the unit. -/
def read (es : List TagEvent) : TagMachine × List TagEvent :=
  let (s, rest) := run {} es
  (s.finish, rest)

theorem run_suffix (s : TagMachine) (es : List TagEvent) : ∃ used, es = used ++ (s.run es).2 := by
  induction es generalizing s with
  | nil => exact ⟨[], rfl⟩
  | cons e es ih =>
    rw [run]
    split
    · exact ⟨[e], rfl⟩
    · obtain ⟨used, hused⟩ := ih (s.step e)
      exact ⟨e :: used, congrArg (e :: ·) hused⟩

@[simp] theorem offset_add (s : TagMachine) (spans : List TagSpan) : (s.add spans).offset = s.offset := by
  unfold add
  split <;> rfl

@[simp] theorem offset_pop (s : TagMachine) : s.pop.offset = s.offset := by
  unfold pop
  split
  · rfl
  · exact offset_add _ _

@[simp] theorem offset_skip (s : TagMachine) : s.skip.offset = s.offset := by
  unfold skip
  split
  · rfl
  · exact offset_pop _

theorem offset_skips (n : Nat) (s : TagMachine) : (skips n s).offset = s.offset := by
  induction n generalizing s with
  | zero => rfl
  | succ n ih => rw [skips, ih, offset_skip]

theorem offset_unwind (s : TagMachine) (e : TagEvent) : (s.unwind e).offset = s.offset := by
  unfold unwind
  split
  · rfl
  · exact offset_skips _ _

theorem add_nil (s : TagMachine) : s.add [] = s := by
  obtain ⟨offset, stack, spans, reports⟩ := s
  cases stack <;> simp [add]

theorem unmatched_skip {o : OpenElement} {stack : List OpenElement}
    (hs : s.stack = o :: stack) (name : List Char) :
    unmatched name s.skip.stack = unmatched name stack := by
  obtain ⟨offset, stack', spans, reports⟩ := s
  obtain rfl : stack' = o :: stack := hs
  cases stack with
  | nil => rfl
  | cons o' stack => simp [skip, report, pop, add, unmatched, List.takeWhile_cons, apply_ite]

end TagMachine

/-! ## The tokens of a tag -/

namespace TagEvent

variable {e : TagEvent} {rest : List Char}

def nameTokens (e : TagEvent) : List Token :=
  (if e.escaped then [⟨.bang, ['!']⟩] else []) ++ [⟨.text, e.name⟩]

def namePieces (e : TagEvent) : List Piece :=
  (if e.escaped then [.part .metacode [.leaf ⟨.bang, ['!']⟩]] else []) ++ [.leaf ⟨.text, e.name⟩]

def tokens (e : TagEvent) : List Token :=
  ⟨.openAngle, ['<']⟩ :: ((if e.closing then [⟨.slash, ['/']⟩] else []) ++
    (e.nameTokens ++ [⟨.closeAngle, ['>']⟩]))

theorem length_le_tokens (es : List TagEvent) : es.length ≤ (es.flatMap tokens).length :=
  Cursor.length_le_flatMap (fun _ => Nat.le_add_left 1 _) es

theorem textOf_tokens (e : TagEvent) : Token.textOf e.tokens = e.text := by
  cases hc : e.closing <;> cases he : e.escaped <;>
    simp [tokens, text, nameTokens, fullName, hc, he]

theorem textOf_flatMap_tokens (es : List TagEvent) :
    Token.textOf (es.flatMap tokens) = es.flatMap text := by
  induction es with
  | nil => rfl
  | cons e es ih => simp [textOf_tokens, ih]

/-- What stands in the tree for the tag. -/
def pieces (e : TagEvent) : List Piece :=
  .leaf ⟨.openAngle, ['<']⟩ :: ((if e.closing then [.leaf ⟨.slash, ['/']⟩] else []) ++
    (e.namePieces ++ [.leaf ⟨.closeAngle, ['>']⟩]))

theorem textOf_pieces (e : TagEvent) : Piece.textOf e.pieces = e.text := by
  cases hc : e.closing <;> cases he : e.escaped <;>
    simp [pieces, text, namePieces, fullName, hc, he, Piece.textOf, Piece.text]

/-- A tag has no tag block inside. -/
theorem tagSpansOf_pieces (e : TagEvent) (start : Nat) : Piece.tagSpansOf start e.pieces = [] := by
  cases hc : e.closing <;> cases he : e.escaped <;>
    simp [pieces, namePieces, hc, he, Piece.tagSpansOf, Piece.tagSpans]

theorem written (he : e.Plain) : Cursor.Written e.nameTokens e.fullName e.namePieces := by
  cases hesc : e.escaped with
  | false =>
    have htext : ∀ t ∈ ([⟨.text, e.name⟩] : List Token), t.kind = .text := by simp
    have hw := Cursor.Written.plain (List.cons_ne_nil _ _) htext
    simpa [nameTokens, namePieces, fullName, hesc] using hw
  | true =>
    have htext : ∀ t ∈ ([⟨.text, e.name⟩] : List Token), t.kind = .text := by simp
    have hw := Cursor.Written.escaped (t := ⟨.bang, ['!']⟩) rfl (List.cons_ne_nil _ _) htext
      (he.not_doctype hesc)
    simpa [nameTokens, namePieces, fullName, hesc] using hw

theorem lex_name (he : e.Plain) :
    Token.lex (e.fullName ++ '>' :: rest) =
      e.nameTokens ++ ⟨.closeAngle, ['>']⟩ :: Token.lex rest := by
  have hsolid : Form.Solid '>' := Form.solid_of_whole .closeAngle rfl (by decide)
  have hname : Token.lex (e.name ++ '>' :: rest) =
      ⟨.text, e.name⟩ :: ⟨.closeAngle, ['>']⟩ :: Token.lex rest := by
    rw [Token.lex_append_solid hsolid, Token.lex_run he.ne_nil he.run,
      Token.lex_whole '>' .closeAngle rfl]
    rfl
  cases hesc : e.escaped with
  | false => simpa [fullName, nameTokens, hesc] using hname
  | true => simp [fullName, nameTokens, hesc, Token.lex_whole '!' .bang rfl, hname]

theorem lex_text (he : e.Plain) : Token.lex (e.text ++ rest) = e.tokens ++ Token.lex rest := by
  rw [text, List.cons_append, Token.lex_whole '<' .openAngle rfl, tokens]
  cases hc : e.closing with
  | false => simp [lex_name he]
  | true => simp [Token.lex_whole '/' .slash rfl, lex_name he]

theorem lex_texts {es : List TagEvent} (h : ∀ e ∈ es, e.Plain) :
    Token.lex (es.flatMap text) = es.flatMap tokens := by
  induction es with
  | nil => rfl
  | cons e es ih =>
    have htail := ih fun d hd => h d (List.mem_cons_of_mem e hd)
    rw [List.flatMap_cons, lex_text (h e (List.mem_cons_self ..)), htail, List.flatMap_cons]

/-! ## Names with a `!` are special to nobody -/

theorem not_void (he : e.Plain) : ({} : Options).isVoidElement e.fullName = false := by
  cases hesc : e.escaped with
  | false => simpa [fullName, hesc] using he.not_void hesc
  | true => simp [fullName, hesc, Options.isVoidElement, Text.sameIgnoringCase, Text.foldCase]

theorem not_script (he : e.Plain) : ({} : Options).isScriptTag e.fullName = false := by
  cases hesc : e.escaped with
  | false => simpa [fullName, hesc] using he.not_script hesc
  | true => simp [fullName, hesc, Options.isScriptTag, Text.sameIgnoringCase, Text.foldCase]

theorem not_text (he : e.Plain) : ({} : Options).isTextTag e.fullName = false := by
  cases hesc : e.escaped with
  | false => simpa [fullName, hesc] using he.not_text hesc
  | true => simp [fullName, hesc, Options.isTextTag, Text.sameIgnoringCase, Text.foldCase]

end TagEvent

end TemplateMarkup
