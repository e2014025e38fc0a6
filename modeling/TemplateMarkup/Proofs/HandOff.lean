import TemplateMarkup.Proofs.RoundTrip

/-! # What a unit leaves to the host

A unit of markup that ends cleanly does not depend on what follows it. The source
goes on behind it with the host's text, of which the unit claims at most the rest
of its last line, and that only if it is blank. -/

namespace TemplateMarkup

open Cursor Form

/-! ## What is claimed -/

namespace Text

/-- Spaces and tabs. -/
def inLine : List Char := [' ', '\t']

/-- The characters of spacing. -/
def spacing : List Char := [' ', '\t', '\r', '\n']

/-- The line ending that a text begins with. -/
def lineEnding : List Char → List Char
  | '\r' :: '\n' :: _ => ['\r', '\n']
  | '\r' :: _ => ['\r']
  | '\n' :: _ => ['\n']
  | _ => []

/-- The spaces and tabs that a text begins with, and the line ending behind them. -/
def blankLine (t : List Char) : List Char :=
  t.takeWhile inLine.contains ++ lineEnding (t.dropWhile inLine.contains)

/-- Whether a text begins with a tag or with `@:`. -/
def beginsMarkup : List Char → Bool
  | '<' :: _ => true
  | '@' :: ':' :: _ => true
  | _ => false

end Text

/-- A unit of markup that ends cleanly. -/
inductive CleanUnit where
  | element (m : Markup)
  /-- Text between the tags that switch from code to markup and back. -/
  | text (content : List Char)

namespace CleanUnit

def print : CleanUnit → List Char
  | element m => m.print
  | text content => "<text>".toList ++ (content ++ "</text>".toList)

/-- An element may be outermost, and text has neither tags nor code in it. -/
def WellFormed : CleanUnit → Prop
  | element m => m.WellFormed ∧ m.IsRoot
  | text content => '<' ∉ content ∧ '@' ∉ content

/-- The part that the unit claims of the text behind it. -/
def claimed (designTime : Bool) (t : List Char) : CleanUnit → List Char
  | element _ => if designTime then [] else Text.blankLine t
  | text _ =>
    if designTime then []
    else if Text.beginsMarkup (t.dropWhile Text.spacing.contains) then Text.blankLine t
    else []

/-- The name of the text element. -/
def textName : List Char := "text".toList

def tokens : CleanUnit → List Token
  | element m => m.tokens
  | text content =>
    Markup.startTokens textName [] ++ Markup.gt :: (Token.lex content ++ Markup.endTokens textName)

/-- What stands in the tree for the unit. -/
def pieces : CleanUnit → List Piece
  | element m => m.pieces
  | text content =>
    .part .markupTransition ((Markup.startTokens textName [] ++ [Markup.gt]).map .leaf) ::
      ((Token.lex content).map .leaf ++
        [.part .markupTransition ((Markup.endTokens textName).map .leaf)])

end CleanUnit

/-! ## The tokens of spacing -/

namespace Token

variable {a rest : List Char} {c : Char}

/-- At most one token, of the kind, in front of others that begin with another kind if there is
none. -/
def AtMostOne (kind : Kind) (ts rest : List Token) : Prop :=
  (ts = [] ∧ kindAt rest 0 ≠ kind) ∨ ∃ t, ts = [t] ∧ t.kind = kind

/-- A text whose first token has the kind begins with a character that such tokens begin with. -/
theorem exists_of_kindAt_lex {kind : Kind} (hk : kind.endsAttributeName = true)
    (hend : kind ≠ .endOfInput) (h : kindAt (lex rest) 0 = kind) :
    ∃ c line, rest = c :: line ∧ c ∈ starters kind := by
  cases rest with
  | nil => exact absurd h.symm hend
  | cons c line =>
    obtain ⟨t, ts, hlex, -, hbegins⟩ := lex_cons c line
    have hkind : t.kind = kind := by
      rw [← h, hlex]
      rfl
    exact ⟨c, line, rfl, mem_starters (hkind ▸ hbegins) hk⟩

theorem kindAt_lex_ne {kind : Kind} (hk : kind.endsAttributeName = true) (hend : kind ≠ .endOfInput)
    (h : ∀ c ∈ rest.head?, c ∉ starters kind) : kindAt (lex rest) 0 ≠ kind := by
  intro hkind
  obtain ⟨c, line, rfl, hmem⟩ := exists_of_kindAt_lex hk hend hkind
  exact h c rfl hmem

theorem ofChar_inLine (h : c ∈ Text.inLine) : ofChar c = blanks := by
  rw [Text.inLine, List.mem_cons, List.mem_singleton] at h
  rcases h with rfl | rfl <;> rfl

theorem inLine_of_ofChar (h : ofChar c = blanks) : c ∈ Text.inLine := by
  have hbegins : Begins (ofChar c) .whitespace := by
    rw [h]
    exact .same
  exact mem_starters hbegins rfl

/-- Spaces and tabs are one token where no more of them follow. -/
theorem lex_inLine_append (ha : ∀ c ∈ a, c ∈ Text.inLine) (hrest : ∀ c ∈ rest.head?, c ∉ Text.inLine) :
    lex (a ++ rest) = lex a ++ lex rest ∧ AtMostOne .whitespace (lex a) (lex rest) := by
  cases a with
  | nil => exact ⟨rfl, .inl ⟨rfl, kindAt_lex_ne rfl (by decide) hrest⟩⟩
  | cons b a =>
    have hfirst : ofChar b = blanks := ofChar_inLine (ha b (List.mem_cons_self ..))
    have hstay : ∀ c ∈ a, blanks.extend? c = some blanks := by
      intro c hc
      rw [extend?, if_pos (ofChar_inLine (ha c (List.mem_cons_of_mem b hc)))]
    have hone : lex (b :: a) = [⟨.whitespace, [b] ++ a⟩] := by
      rw [lex, hfirst]
      exact lexFrom_same [b] hstay
    refine ⟨?_, .inr ⟨_, hone, rfl⟩⟩
    cases rest with
    | nil => rw [List.append_nil, lex, List.append_nil]
    | cons c rest =>
      refine lexFrom_append ?_
      rw [hfirst, reach_same hstay]
      exact extend?_of_blanks fun hc => hrest c rfl (inLine_of_ofChar hc)

/-- A line ending is one token. -/
theorem lex_lineEnding (t : List Char) :
    lex t = lex (Text.lineEnding t) ++ lex (t.drop (Text.lineEnding t).length) ∧
      AtMostOne .newline (lex (Text.lineEnding t)) (lex (t.drop (Text.lineEnding t).length)) := by
  unfold Text.lineEnding
  split
  · next rest =>
    refine ⟨?_, .inr ⟨⟨.newline, ['\r', '\n']⟩, rfl, rfl⟩⟩
    cases rest <;> rfl
  · next rest hno =>
    refine ⟨?_, .inr ⟨⟨.newline, ['\r']⟩, rfl, rfl⟩⟩
    cases rest with
    | nil => rfl
    | cons c rest =>
      have hc : carriageReturn.extend? c = none := if_neg fun hc => hno rest (by rw [hc])
      show lexFrom carriageReturn ['\r'] (c :: rest) = _
      rw [lexFrom, hc]
      rfl
  · next rest => exact ⟨lex_whole '\n' .newline rfl, .inr ⟨⟨.newline, ['\n']⟩, rfl, rfl⟩⟩
  · next hcrlf hcr hlf =>
    refine ⟨rfl, .inl ⟨rfl, kindAt_lex_ne rfl (by decide) fun c hc hmem => ?_⟩⟩
    obtain ⟨rest, rfl⟩ : ∃ rest, t = c :: rest := List.head?_eq_some_iff.mp hc
    rw [starters, List.mem_cons, List.mem_singleton] at hmem
    rcases hmem with rfl | rfl
    · exact hcr rest rfl
    · exact hlf rest rfl

theorem head_lineEnding (t : List Char) : ∀ c ∈ (Text.lineEnding t).head?, c ∉ Text.inLine := by
  unfold Text.lineEnding
  split <;> rintro c ⟨⟩ <;> decide

theorem drop_blankLine (t : List Char) : t.drop (Text.blankLine t).length =
    (t.dropWhile Text.inLine.contains).drop
      (Text.lineEnding (t.dropWhile Text.inLine.contains)).length := by
  have ht : t.takeWhile Text.inLine.contains ++ t.dropWhile Text.inLine.contains = t :=
    List.takeWhile_append_dropWhile
  have hdrop : t.drop (t.takeWhile Text.inLine.contains).length =
      t.dropWhile Text.inLine.contains :=
    (congrArg (List.drop _) ht.symm).trans List.drop_left
  rw [Text.blankLine, List.length_append, ← List.drop_drop, hdrop]

/-- The rest of a blank line is at most a token of spaces and tabs and a line ending. -/
theorem lex_blankLine (t : List Char) :
    lex t = lex (Text.blankLine t) ++ lex (t.drop (Text.blankLine t).length) ∧
      ∃ blanks ending, lex (Text.blankLine t) = blanks ++ ending ∧
        AtMostOne .whitespace blanks (ending ++ lex (t.drop (Text.blankLine t).length)) ∧
        AtMostOne .newline ending (lex (t.drop (Text.blankLine t).length)) := by
  rw [drop_blankLine, Text.blankLine]
  obtain ⟨ht, hblanks, hother⟩ := run_spec Text.inLine.contains t
  generalize t.takeWhile Text.inLine.contains = blanks at ht hblanks ⊢
  generalize t.dropWhile Text.inLine.contains = line at ht hother ⊢
  have hmem : ∀ c ∈ blanks, c ∈ Text.inLine := by
    intro c hc
    exact List.contains_iff_mem.mp (hblanks c hc)
  have hnot : ∀ c ∈ line.head?, c ∉ Text.inLine := by
    intro c hc hmem
    exact Bool.false_ne_true ((hother c hc).symm.trans (List.contains_iff_mem.mpr hmem))
  obtain ⟨hline, hspace⟩ := lex_inLine_append hmem hnot
  obtain ⟨hending, hnewline⟩ := lex_lineEnding line
  obtain ⟨hboth, -⟩ := lex_inLine_append hmem (head_lineEnding line)
  rw [hending] at hspace
  refine ⟨?_, _, _, hboth, hspace, hnewline⟩
  rw [hboth, ← ht, hline, List.append_assoc, ← hending]

/-- An `@` is a token of its own unless an asterisk follows. -/
theorem kindAt_lex_transition :
    kindAt (lex a) 0 = .transition ↔ ∃ rest, a = '@' :: rest ∧ rest.head? ≠ some '*' := by
  constructor
  · intro hk
    obtain ⟨c, rest, rfl, hc⟩ := exists_of_kindAt_lex rfl (by decide) hk
    obtain rfl := List.mem_singleton.mp hc
    refine ⟨rest, rfl, fun hstar => ?_⟩
    obtain ⟨rest, rfl⟩ := List.head?_eq_some_iff.mp hstar
    rw [lex_commentOpen] at hk
    cases hk
  · rintro ⟨rest, rfl, hstar⟩
    rw [lex_transition hstar]
    rfl

/-- The kinds of the first two tokens say whether a text begins with a tag or with `@:`. -/
theorem beginsMarkup_iff (t : List Char) : Text.beginsMarkup t = true ↔
    kindAt (lex t) 0 = .openAngle ∨
      kindAt (lex t) 0 = .transition ∧ kindAt (lex t) 1 = .colon := by
  have hcolon {rest : List Char} (hstar : rest.head? ≠ some '*') :
      kindAt (lex ('@' :: rest)) 1 = .colon ↔ [':'] <+: rest := by
    rw [lex_transition hstar]
    exact kindAt_lex_whole rfl (by decide)
  rw [kindAt_lex_whole (d := '<') rfl (by decide), kindAt_lex_transition]
  constructor
  · unfold Text.beginsMarkup
    split
    · next line => exact fun _ => .inl ⟨line, rfl⟩
    · next line =>
      have hstar : (':' :: line).head? ≠ some '*' := by simp
      exact fun _ => .inr ⟨⟨_, rfl, hstar⟩, (hcolon hstar).mpr ⟨line, rfl⟩⟩
    · exact nofun
  · rintro (⟨line, rfl⟩ | ⟨⟨rest, rfl, hstar⟩, hnext⟩)
    · rfl
    · obtain ⟨line, rfl⟩ := (hcolon hstar).mp hnext
      rfl

end Token

namespace Cursor

variable {σ : Type} {code : EmbeddedCode σ} {c d : Cursor σ} {ts used rest : List Token}
  {t lt gt slash : Token} {line : List Char} {kind : Kind}

/-! ## Tags of the text element -/

theorem eatName_eq (ha : c.ahead = ts ++ gt :: rest) (hts : ∀ t ∈ ts, t.kind = .text)
    (hgt : gt.kind = .closeAngle) : c.eatName = c.bumpN ts.length := by
  refine bumpWhile_eq ha (by simpa using hts) ?_
  rintro t ⟨⟩
  rw [hgt]
  rfl

/-- Tokens accepted in one go become a node, if none waited before. -/
theorem takes_flush (hh : c.held = []) (hp : c.pending = []) (ha : c.ahead = used ++ rest)
    (hne : used ≠ []) (hk : kind ≠ .literal) :
    Takes used [.part kind (used.map .leaf)] c ((c.bumpN used.length).flush kind) ∧
      Finishes kind c ((c.bumpN used.length).flush kind) := by
  refine ⟨?_, ⟨fun _ => ?_⟩⟩
  · have htakes := Takes.flush_bumpN hh ha hne hk
    rwa [flush_of_pending hp] at htakes
  · rw [lastNode_flush, if_neg]
    simpa [bumpN_eq hh, hp, ha] using hne

/-- An outermost start tag of the text element is a node by itself. -/
theorem tag_textStart (code : EmbeddedCode σ) (hh : c.held = []) (hp : c.pending = [])
    (ha : c.ahead = lt :: ts ++ gt :: rest) (hne : ts ≠ []) (hts : ∀ t ∈ ts, t.kind = .text)
    (hgt : gt.kind = .closeAngle) (htext : c.context.options.isTextTag (Token.textOf ts) = true) :
    ∃ d, c.tag code [] = ⟨d, [⟨Token.textOf ts, c.offset, none⟩], true⟩ ∧
      Takes (lt :: ts ++ [gt]) [.part .markupTransition ((lt :: ts ++ [gt]).map .leaf)] c d := by
  have hdrop : c.ahead.drop 1 = ts ++ gt :: rest := by rw [ha]; rfl
  have hstop : ∀ t ∈ (gt :: rest).head?, t.kind ≠ .text := by
    rintro t ⟨⟩
    rw [hgt]
    decide
  have hname : c.tagNameAt 1 = Token.textOf ts := (Written.plain hne hts).tagNameAt_eq hdrop hstop
  have hnext : c.nth 1 = .text := by
    obtain ⟨t, ts, rfl⟩ := List.exists_cons_of_ne_nil hne
    exact (nth_eq hdrop).trans (hts t (List.mem_cons_self ..))
  have hahead : c.bump.ahead = ts ++ gt :: rest := by rw [ahead_bump, ha]; rfl
  have hclose : (c.bump.bumpN ts.length).ahead.drop 0 = gt :: rest := by
    rw [ahead_bumpN, hahead, List.drop_left]
    rfl
  have hspacing : (c.bump.bumpN ts.length).spacing 0 = 0 :=
    Markup.spacing_eq_zero hclose (by rw [hgt]; rfl)
  have hkind : (c.bump.bumpN ts.length).nth 0 = .closeAngle := (nth_eq hclose).trans hgt
  have hline : c.ahead = (lt :: ts ++ [gt]) ++ rest := by simp [ha]
  have hall : (c.bump.bumpN ts.length).bumpN 1 = c.bumpN (lt :: ts ++ [gt]).length := by
    have hlen : (lt :: ts ++ [gt]).length = ts.length + 2 := by simp
    rw [hlen]
    exact bump_bumpN c.bump ts.length
  obtain ⟨htakes, -⟩ := takes_flush hh hp hline (List.cons_ne_nil _ _)
    (by decide : Kind.markupTransition ≠ .literal)
  refine ⟨_, ?_, htakes⟩
  rw [tag, hnext, if_neg (by decide), if_neg (by simp [atSpecialTag, hnext]), if_neg (by decide)]
  unfold startTag
  dsimp only
  rw [hname, if_pos ⟨rfl, htext⟩]
  unfold textStartTag
  dsimp only
  rw [eatName_eq hahead hts hgt, hspacing]
  simp only [hkind, hspacing, hall, reduceCtorEq, if_false, if_true]

/-- And so is the end tag. -/
theorem tag_textEnd (code : EmbeddedCode σ) {u : OpenTag} (hh : c.held = []) (hp : c.pending = [])
    (ha : c.ahead = lt :: slash :: ts ++ gt :: rest) (hne : ts ≠ []) (hts : ∀ t ∈ ts, t.kind = .text)
    (hslash : slash.kind = .slash) (hgt : gt.kind = .closeAngle) (hu : u.block? = none)
    (hsame : Text.sameIgnoringCase u.name (Token.textOf ts) = true)
    (htext : c.context.options.isTextTag (Token.textOf ts) = true) :
    ∃ d, c.tag code [u] = ⟨d, [], true⟩ ∧
      Takes (lt :: slash :: ts ++ [gt])
        [.part .markupTransition ((lt :: slash :: ts ++ [gt]).map .leaf)] c d ∧
      Finishes .markupTransition c d := by
  have hstop : ∀ t ∈ (gt :: rest).head?, t.kind ≠ .text := by
    rintro t ⟨⟩
    rw [hgt]
    decide
  obtain ⟨htag, hend, hname⟩ := tag_end code [u] (Written.plain hne hts) ha hslash hstop
  have hahead : (c.bumpN 2).ahead = ts ++ gt :: rest := by rw [ahead_bumpN, ha]; rfl
  have hclose : ((c.bumpN 2).bumpN ts.length).ahead = gt :: rest := by
    rw [ahead_bumpN, hahead, List.drop_left]
  have heat : ((c.bumpN 2).bumpN ts.length).eat .closeAngle =
      (true, ((c.bumpN 2).bumpN ts.length).bump) := by
    rw [eat, if_pos (by simp [at?, current_cons hclose, hgt])]
  have hline : c.ahead = (lt :: slash :: ts ++ [gt]) ++ rest := by simp [ha]
  have hall : ((c.bumpN 2).bumpN ts.length).bump = c.bumpN (lt :: slash :: ts ++ [gt]).length := by
    have hlen : (lt :: slash :: ts ++ [gt]).length = ts.length + 3 := by simp
    rw [hlen]
    exact bump_bumpN (c.bumpN 2) ts.length
  obtain ⟨htakes, hlast⟩ := takes_flush hh hp hline (List.cons_ne_nil _ _)
    (by decide : Kind.markupTransition ≠ .literal)
  refine ⟨_, ?_, htakes, hlast⟩
  have hopen : u.close c = c := by rw [OpenTag.close, hu]
  rw [htag]
  unfold endTag
  dsimp only
  rw [if_neg hend, hname, OpenTags.removeMatching, if_pos hsame]
  dsimp only
  rw [if_pos ⟨rfl, htext⟩, hopen]
  unfold textEndTag
  dsimp only
  rw [eatName_eq hahead hts hgt, heat, hall]
  rfl

/-! ## Behind a unit -/

theorem Takes.eat (hh : c.held = []) (ha : c.ahead = ts ++ rest)
    (hts : Token.AtMostOne kind ts rest) : Takes ts (ts.map .leaf) c (c.eat kind).2 := by
  rcases hts with ⟨rfl, hnone⟩ | ⟨t, rfl, hk⟩
  · rw [eat_false ha hnone]
    exact Takes.refl hh
  · rw [(Takes.eat_true hh ha hk).1]
    exact Takes.bump hh ha

/-- The rest of a blank line is taken as a whole. -/
theorem takes_blankLine (hh : c.held = []) (ha : c.ahead = Token.lex line) :
    Takes (Token.lex (Text.blankLine line)) ((Token.lex (Text.blankLine line)).map .leaf) c
      ((c.eat .whitespace).2.eat .newline).2 := by
  obtain ⟨hlex, blanks, ending, hline, hblanks, hending⟩ := Token.lex_blankLine line
  rw [hlex, hline, List.append_assoc] at ha
  have hfirst := Takes.eat hh ha hblanks
  have hsecond := Takes.eat hfirst.held (hfirst.ahead_eq ha) hending
  rw [hline, List.map_append]
  exact hfirst.trans hsecond

theorem nth_add {n : Nat} (h : c.ahead.drop n = ts) (k : Nat) : c.nth (n + k) = Token.kindAt ts k := by
  simp [nth, Token.kindAt, ← h]

/-- Whether markup follows is seen in the text that follows. -/
theorem markupFollows_eq (ha : c.ahead = Token.lex line) :
    c.markupFollows = Text.beginsMarkup (line.dropWhile Text.spacing.contains) := by
  obtain ⟨hline, hspaces, hother⟩ := run_spec Text.spacing.contains line
  generalize line.takeWhile Text.spacing.contains = spaces at hline hspaces
  generalize line.dropWhile Text.spacing.contains = text at hline hother ⊢
  have hfirst : ∀ c ∈ spaces, (ofChar c).kind.isTrivia = true := by
    intro c hc
    exact Token.isTrivia_ofChar.mpr (List.contains_iff_mem.mp (hspaces c hc))
  have hnext : ∀ c ∈ text.head?, (ofChar c).kind.isTrivia = false := by
    intro c hc
    refine Bool.eq_false_iff.mpr fun h => ?_
    exact Bool.false_ne_true ((hother c hc).symm.trans
      (List.contains_iff_mem.mpr (Token.isTrivia_ofChar.mp h)))
  obtain ⟨hlex, htrivia⟩ := Token.lex_trivia_append hfirst hnext
  have hahead : c.ahead = Token.lex spaces ++ Token.lex text := by rw [ha, ← hline, hlex]
  have hlen : c.spacing 0 = (Token.lex spaces).length :=
    runLength_eq hahead htrivia (Token.not_trivia_of_lex hnext)
  have hdrop : c.ahead.drop (c.spacing 0) = Token.lex text := by
    rw [hahead, hlen, List.drop_left]
  rw [Bool.eq_iff_iff, Token.beginsMarkup_iff, ← nth_eq hdrop, ← nth_add hdrop 1]
  unfold markupFollows
  dsimp only
  split
  · next h => simp [h]
  · next h => simp [h]
  · next hangle hat =>
    constructor
    · intro h
      cases h
    · rintro (h | ⟨h, -⟩)
      · exact (hangle h).elim
      · exact (hat h).elim

end Cursor

namespace CleanUnit

variable {σ : Type} {code : EmbeddedCode σ} {c d : Cursor σ} {designTime : Bool} {rest : List Token}
  {u : CleanUnit} {content : List Char}

/-- The kind of the node that the unit ends with. -/
def lastKind : CleanUnit → Kind
  | element _ => .tagBlock
  | text _ => .markupTransition

theorem named_textName : Markup.Named textName := ⟨by decide, by decide⟩

theorem isTextTag_textName (options : Options) (h : options.textTagName = "text") :
    options.isTextTag (Token.textOf (Token.lex textName)) = true := by
  rw [Token.textOf_lex, Options.isTextTag, h]
  rfl

/-- Between text tags there is one scan. -/
theorem walks_text (code : EmbeddedCode σ) (hangle : '<' ∉ content) (hat : '@' ∉ content)
    (hh : c.held = []) (hcontext : c.context = { options := { designTime } })
    (ha : c.ahead = (text content).tokens ++ rest) :
    ∃ d, Takes (text content).tokens (text content).pieces c d ∧ Finishes .markupTransition c d ∧
      ∀ bound complete, tagsFrom code (2 + bound) ⟨c, [], complete⟩ = ⟨d, [], true⟩ := by
  obtain ⟨-, hname⟩ := named_textName
  have hne : Token.lex textName ≠ [] := by decide
  have hskip := Markup.skipped_text hangle hat
  have hline : c.ahead = Markup.lt :: Token.lex textName ++ Markup.gt :: (Token.lex content ++
      (Markup.endTokens textName ++ rest)) := by
    simp [ha, tokens, Markup.startTokens]
  obtain ⟨d, hfirst, hd, hwalk⟩ := tagsFrom_at code [] hh (by rw [hcontext]) hline rfl
  have hdc : d.context = { options := { designTime } } := hfirst.context_eq.trans hcontext
  obtain ⟨e, htag, hopen⟩ := tag_textStart code hfirst.held hd (hfirst.ahead_eq hline) hne hname rfl
    (isTextTag_textName _ (by rw [hdc]))
  have hec : e.context = { options := { designTime } } := hopen.context_eq.trans hdc
  have he : e.ahead = Token.lex content ++ Markup.lt :: (Markup.slash :: Token.lex textName ++
      Markup.gt :: rest) := by
    refine hopen.ahead_eq ((hfirst.ahead_eq hline).trans ?_)
    simp [Markup.endTokens]
  generalize hu : (⟨Token.textOf (Token.lex textName), d.offset, none⟩ : OpenTag) = u at htag
  obtain ⟨f, hbody, hf, hwalk'⟩ := tagsFrom_succ code [u] hopen.held (by rw [hec])
    (fun t ht => (hskip t ht).2) (fun t ht => (hskip t ht).1) he rfl
  have hfc : f.context = { options := { designTime } } := hbody.context_eq.trans hec
  obtain ⟨g, htag', hclose, hlast⟩ := tag_textEnd code (u := u) hbody.held hf (hbody.ahead_eq he) hne
    hname rfl rfl (by rw [← hu]) (by rw [← hu]; rfl) (isTextTag_textName _ (by rw [hfc]))
  have hinner := (hfirst.trans hopen).trans hbody
  have hall := hinner.trans hclose
  refine ⟨g, ?_, hinner.finishes hlast, fun bound complete => ?_⟩
  · have hused : (text content).tokens = [] ++ (Markup.lt :: Token.lex textName ++ [Markup.gt]) ++
        Token.lex content ++ (Markup.lt :: Markup.slash :: Token.lex textName ++ [Markup.gt]) := by
      simp [tokens, Markup.startTokens, Markup.endTokens]
    have hshown : (text content).pieces =
        [] ++ [.part .markupTransition ((Markup.lt :: Token.lex textName ++ [Markup.gt]).map .leaf)] ++
          (Token.lex content).map .leaf ++ [.part .markupTransition
            ((Markup.lt :: Markup.slash :: Token.lex textName ++ [Markup.gt]).map .leaf)] := by
      simp [pieces, Markup.startTokens, Markup.endTokens]
    rw [hused, hshown]
    exact hall
  · have hrounds : 2 + bound = bound + 1 + 1 := by omega
    rw [hrounds, hwalk, htag, resume_of_ne_nil _ _ (List.cons_ne_nil _ _), hwalk', htag']
    rfl

/-- The unit is taken up to its end, whatever follows. -/
theorem takes_unit (code : EmbeddedCode σ) (hu : u.WellFormed) (hh : c.held = [])
    (hcontext : c.context = { options := { designTime } })
    (ha : c.ahead = u.tokens ++ rest) (hne : ∀ t ∈ u.tokens, t.text ≠ []) :
    ∃ d, Takes u.tokens u.pieces c d ∧ Finishes u.lastKind c d ∧
      c.tagBlock code = endTags ⟨d, [], true⟩ := by
  cases u with
  | element m => exact Markup.takes_tagBlock code hu.1 hu.2 hh hcontext ha hne
  | text content =>
    obtain ⟨d, htakes, hlast, hwalk⟩ := walks_text code hu.1 hu.2 hh hcontext ha
    have htwo : 2 ≤ (text content).tokens.length := by
      rw [tokens, List.length_append, List.length_cons, List.length_append]
      simp only [Markup.startTokens, List.length_cons]
      omega
    have hcount : 2 ≤ c.unclaimed := Nat.le_trans htwo (length_le_unclaimed ha hne)
    obtain ⟨bound, hbound⟩ : ∃ bound, c.unclaimed + 1 = 2 + bound :=
      Nat.exists_eq_add_of_le (Nat.le_succ_of_le hcount)
    exact ⟨d, htakes, hlast, by rw [tagBlock, hbound, hwalk]⟩

/-- Behind the unit its part of the text is taken. -/
theorem takes_claimed (hh : d.held = []) (hcontext : d.context = { options := { designTime } })
    (hlast : d.lastNode = some u.lastKind) {t : List Char} (ha : d.ahead = Token.lex t) :
    Takes (Token.lex (u.claimed designTime t)) ((Token.lex (u.claimed designTime t)).map .leaf) d
      (endTags ⟨d, [], true⟩) := by
  have hnone : Takes (Token.lex []) ((Token.lex []).map .leaf) d (d.flush .literal) :=
    (Takes.refl hh).flush_literal
  have hline := (takes_blankLine hh ha).flush_literal
  have hdesign : d.context.options.designTime = designTime := by rw [hcontext]
  unfold endTags OpenTags.drain
  dsimp only
  rw [hdesign, hlast, markupFollows_eq ha]
  cases designTime with
  | true => cases u <;> exact hnone
  | false =>
    cases u with
    | element m => exact hline
    | text content =>
      rw [claimed, if_neg Bool.false_ne_true]
      cases Text.beginsMarkup (t.dropWhile Text.spacing.contains) with
      | true => exact hline
      | false => exact hnone

/-! ## The parse -/

theorem lex_print (hu : u.WellFormed) (t : List Char) :
    Token.lex (u.print ++ t) = u.tokens ++ Token.lex t := by
  cases u with
  | element m => exact Markup.lex_print m hu.1 hu.2.not_text t
  | text content =>
    have hclose : Solid '>' := solid_of_whole .closeAngle rfl (by decide)
    have hnone : ∀ a ∈ ([] : List (List Char × List Char)), Markup.AttributeFits a := by
      intro a ha
      cases ha
    have hprint : (text content).print ++ t =
        Markup.printStart textName [] ++ '>' :: (content ++ (Markup.printEnd textName ++ t)) := by
      show "<text>".toList ++ (content ++ "</text>".toList) ++ t = _
      rw [List.append_assoc, List.append_assoc]
      rfl
    have hcontent : Token.lex (content ++ (Markup.printEnd textName ++ t)) =
        Token.lex content ++ Token.lex (Markup.printEnd textName ++ t) :=
      Token.lex_append_solid Markup.solid_openAngle
    rw [hprint, Markup.lex_start named_textName hclose hnone, Token.lex_whole '>' .closeAngle rfl,
      hcontent, Markup.lex_end, tokens]
    simp [Markup.gt]

theorem first_token (hu : u.WellFormed) : ∃ ts, u.tokens = Markup.lt :: ts := by
  cases u with
  | element m => exact Markup.head_tokens hu.2
  | text content => exact ⟨_, rfl⟩

theorem claimed_cases (u : CleanUnit) (designTime : Bool) (t : List Char) :
    u.claimed designTime t = [] ∨ u.claimed designTime t = Text.blankLine t := by
  cases designTime with
  | true => exact .inl (by cases u <;> rfl)
  | false =>
    cases u with
    | element m => exact .inr rfl
    | text content =>
      rw [claimed, if_neg Bool.false_ne_true]
      split
      · exact .inr rfl
      · exact .inl rfl

/-- The host's text is cut between two tokens. -/
theorem lex_claimed (u : CleanUnit) (designTime : Bool) (t : List Char) :
    Token.lex t = Token.lex (u.claimed designTime t) ++
      Token.lex (t.drop (u.claimed designTime t).length) := by
  rcases claimed_cases u designTime t with hclaim | hclaim <;> rw [hclaim]
  · rfl
  · exact (Token.lex_blankLine t).1

theorem claimed_append (u : CleanUnit) (designTime : Bool) (t : List Char) :
    u.claimed designTime t ++ t.drop (u.claimed designTime t).length = t := by
  have htext := congrArg Token.textOf (u.lex_claimed designTime t)
  rw [Token.textOf_append, Token.textOf_lex, Token.textOf_lex, Token.textOf_lex] at htext
  exact htext.symm

theorem claimed_nil (u : CleanUnit) (designTime : Bool) : u.claimed designTime [] = [] := by
  cases u <;> cases designTime <;> rfl

/-- A unit in front of any text. -/
theorem parse_append (hu : u.WellFormed) (designTime : Bool) (host : σ) (t : List Char) :
    ∃ p block rest,
      parseBlock { designTime } .implicit host (String.ofList (u.print ++ t)) = .ok p ∧
      p.diagnostics = [] ∧ p.tree = .node .root (.node .markupBlock block :: rest) ∧
      Tree.piecesOf block = u.pieces ++ (Token.lex (u.claimed designTime t)).map .leaf ∧
      (t = [] → rest = []) ∧
      p.unparsedText? = if t.drop (u.claimed designTime t).length = [] then none
        else some (t.drop (u.claimed designTime t).length) := by
  generalize hsource : String.ofList (u.print ++ t) = source
  have htext : source.toList = u.print ++ t := by rw [← hsource, String.toList_ofList]
  have hahead : (Parse.blockStart { designTime } host source).ahead = u.tokens ++ Token.lex t := by
    rw [Parse.ahead_blockStart, htext, lex_print hu]
  have hne : ∀ v ∈ u.tokens, v.text ≠ [] := by
    intro v hv
    have hmem : v ∈ Token.lex source.toList := by
      rw [htext, lex_print hu]
      exact List.mem_append_left _ hv
    exact Token.text_ne_nil_of_mem_lex hmem
  obtain ⟨ts, hfirst⟩ := first_token hu
  have hcurrent : (Parse.blockStart { designTime } host source).current = .openAngle := by
    rw [hfirst] at hahead
    exact current_cons hahead
  have hviews := Parse.views_blockStart { designTime } host source
  obtain ⟨d, hunit, hlast, htags⟩ := takes_unit .implicit hu rfl rfl hahead hne
  have hclaim := takes_claimed hunit.held hunit.context_eq (hlast.lastNode hviews)
    (hunit.ahead_eq hahead)
  rw [← htags, ← Parse.blockEnd_of_openAngle hcurrent] at hclaim
  have hall := hunit.trans hclaim
  have hleft : (Parse.blockEnd { designTime } .implicit host source).rest =
      t.drop (u.claimed designTime t).length := by
    rw [u.lex_claimed designTime t, ← List.append_assoc] at hahead
    rw [Cursor.rest, hall.held, hall.ahead_eq hahead]
    exact Token.textOf_lex _
  obtain ⟨p, block, rest, hp, -, hdiagnostics, htree, hblock, hrest⟩ :=
    Parse.parseBlock_of_views (lawful_implicit True fun _ => True) (hall.adds.view hviews)
  have hunparsed := Parse.unparsedText?_of_tree htree hrest
  rw [hleft] at hunparsed hrest
  refine ⟨p, block, rest, hp, ?_, htree, hblock, ?_, hunparsed⟩
  · rw [hdiagnostics, hall.adds.diagnostics]
    rfl
  · rintro rfl
    rcases hrest with ⟨hnone, -⟩ | ⟨us, ts, -, hus, hts, hne⟩
    · exact hnone
    · have hus' : Tree.textOf us = Token.textOf ts := by
        rw [← Tree.textOf_piecesOf, hus, Piece.textOf_map_leaf]
      rw [hus', ← hts, List.drop_nil] at hne
      exact absurd rfl hne

/-- A unit that ends cleanly is read alike whatever follows it. Of the text behind it the host gets
everything but the part that the unit claims, and this part is all that the unit has more. -/
theorem parseBlock_handOff (u : CleanUnit) (hu : u.WellFormed) (designTime : Bool) (host : σ)
    (t : List Char) :
    ∃ p q block block' rest left,
      parseBlock { designTime } .implicit host (String.ofList u.print) = .ok p ∧
      p.diagnostics = [] ∧ p.tree = .node .root [.node .markupBlock block] ∧
      Tree.piecesOf block = u.pieces ∧
      parseBlock { designTime } .implicit host (String.ofList (u.print ++ t)) = .ok q ∧
      q.diagnostics = [] ∧ q.tree = .node .root (.node .markupBlock block' :: rest) ∧
      Tree.piecesOf block' =
        Tree.piecesOf block ++ (Token.lex (u.claimed designTime t)).map .leaf ∧
      t = u.claimed designTime t ++ left ∧
      q.unparsedText? = if left = [] then none else some left := by
  obtain ⟨p, block, none, hp, hsilent, htree, hblock, hnone, -⟩ := parse_append hu designTime host []
  obtain ⟨q, block', rest, hq, hsilent', htree', hblock', -, hleft⟩ :=
    parse_append hu designTime host t
  rw [List.append_nil] at hp
  rw [claimed_nil, Token.lex, List.map_nil, List.append_nil] at hblock
  rw [hnone rfl] at htree
  refine ⟨p, q, block, block', rest, _, hp, hsilent, htree, hblock, hq, hsilent', htree', ?_,
    (claimed_append u designTime t).symm, hleft⟩
  rw [hblock', hblock]

/-- `<text>a</text>` in front of a line that begins with a tag: the line ending is claimed. -/
theorem parseBlock_handOff_text :
    let u : CleanUnit := .text "a".toList
    let t := " \n<p>".toList
    u.WellFormed ∧ ∃ p q,
      parseBlock {} .implicit () (String.ofList u.print) = .ok p ∧ p.diagnostics = [] ∧
      parseBlock {} .implicit () (String.ofList (u.print ++ t)) = .ok q ∧ q.diagnostics = [] ∧
      q.unparsedText? = some "<p>".toList := by
  intro u t
  have hu : u.WellFormed := by constructor <;> decide
  refine ⟨hu, ?_⟩
  obtain ⟨p, q, block, block', rest, left, hp, hsilent, -, -, hq, hsilent', -, -, hleft, hunparsed⟩ :=
    parseBlock_handOff u hu false () t
  have hclaim : u.claimed false t = " \n".toList := by decide
  have hrest : left = "<p>".toList := by
    rw [hclaim] at hleft
    have ht : " \n".toList ++ "<p>".toList = " \n".toList ++ left := hleft
    exact (List.append_cancel_left ht).symm
  rw [hrest] at hunparsed
  exact ⟨p, q, hp, hsilent, hq, hsilent', hunparsed⟩

end CleanUnit

end TemplateMarkup
