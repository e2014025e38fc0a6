import TemplateMarkup.Proofs.AttributeForms
import TemplateMarkup.Proofs.RoundTrip
import TemplateMarkup.Proofs.ScriptBodies

/-! # Scripts that hold markup

The first attribute named `type` decides whether the content of a script is read as
markup or as one text up to the script's end tag. -/

namespace TemplateMarkup

/-! ## What the attributes say -/

namespace AttributeForm

/-- Of the attributes named `type` the first has a value that is `text/html`, apart from spacing around
it. -/
def DeclaresHtml (as : List AttributeForm) : Prop :=
  ∃ before a after v, as = before ++ a :: after ∧
    (∀ b ∈ before, Text.sameIgnoringCase b.name "type".toList = false) ∧
    Text.sameIgnoringCase a.name "type".toList = true ∧ a.value? = some v ∧
    Text.sameIgnoringCase (Text.trim v.value) "text/html".toList = true

variable {as : List AttributeForm}

theorem declaresHtml_iff :
    DeclaresHtml as ↔ scriptHoldsMarkup {} (as.map toAttribute) = true := by
  have hholds : scriptHoldsMarkup {} (as.map toAttribute) = true ↔
      ∃ a, as.find? (fun a => Text.sameIgnoringCase a.name "type".toList) = some a ∧
        ∃ v, a.value? = some v ∧
          Text.sameIgnoringCase (Text.trim v.value) "text/html".toList = true := by
    rw [scriptHoldsMarkup, List.find?_map,
      show ((fun b : Attribute => Text.sameIgnoringCase b.name "type".toList) ∘ toAttribute) =
        fun a => Text.sameIgnoringCase a.name "type".toList from rfl]
    cases as.find? fun a => Text.sameIgnoringCase a.name "type".toList with
    | none => simp
    | some a => cases h : a.value? <;> simp [toAttribute, h]
  rw [hholds]
  constructor
  · rintro ⟨before, a, after, v, rfl, hbefore, hname, hvalue, hsame⟩
    refine ⟨a, List.find?_eq_some_iff_append.mpr ⟨hname, before, after, rfl, ?_⟩, v, hvalue, hsame⟩
    simpa using hbefore
  · rintro ⟨a, hfind, v, hvalue, hsame⟩
    obtain ⟨hname, before, after, rfl, hbefore⟩ := List.find?_eq_some_iff_append.mp hfind
    exact ⟨before, a, after, v, rfl, by simpa using hbefore, hname, hvalue, hsame⟩

instance (as : List AttributeForm) : Decidable (DeclaresHtml as) :=
  decidable_of_iff _ declaresHtml_iff.symm

/-! ## The start tag of a script -/

def scriptName : List Char := "script".toList

/-- The start tag of a script up to its `>`. -/
def scriptStart (as : List AttributeForm) : List Char := '<' :: (scriptName ++ as.flatMap print)

def scriptTokens (as : List AttributeForm) : List Token :=
  Markup.lt :: (Token.lex scriptName ++ as.flatMap tokens)

def scriptPieces (as : List AttributeForm) : List Piece :=
  .leaf Markup.lt :: ((Token.lex scriptName).map .leaf ++ as.flatMap pieces)

theorem scriptName_named : Markup.Named scriptName := ⟨by decide, by decide⟩

theorem lex_scriptStart (has : ∀ a ∈ as, a.Written) (rest : List Char) :
    Token.lex (scriptStart as ++ '>' :: rest) = scriptTokens as ++ Markup.gt :: Token.lex rest := by
  have hblank : ∀ c ∈ Token.starters .whitespace, c ∉ scriptName := by
    simp [Token.starters, scriptName]
  have hname : Token.lex (scriptName ++ (as.flatMap print ++ '>' :: rest)) =
      Token.lex scriptName ++ Token.lex (as.flatMap print ++ '>' :: rest) :=
    lex_append_next hblank (head_prints as rest)
  rw [scriptStart, List.cons_append, List.append_assoc, Token.lex_whole '<' .openAngle rfl, hname,
    lex_prints has, Token.lex_whole '>' .closeAngle rfl, scriptTokens]
  simp [Markup.lt, Markup.gt]

end AttributeForm

namespace Cursor

open AttributeForm Markup

variable {σ : Type} {code : EmbeddedCode σ} {c d e : Cursor σ} {used rest us : List Token}
  {aps : List Piece}
  {name : List Char} {tags : OpenTags} {t : Token}

/-- The start tag of a script. Its attributes say what comes behind it. -/
theorem restOfStartTag_script (tags : OpenTags) (m : Marker) (start : Nat)
    (hattributes : Takes used aps c (c.attributes code).2)
    (ha : c.ahead = used ++ t :: rest) (ht : t.kind = .closeAngle)
    (hvoid : c.context.options.isVoidElement name = false)
    (hscript : c.context.options.isScriptTag name = true) :
    ∃ d, Takes (used ++ [t]) (aps ++ [.leaf t]) c d ∧ c.restOfStartTag code tags m name start =
      if scriptHoldsMarkup c.context.options (c.attributes code).1
      then ⟨d, ⟨name, start, some m⟩ :: tags, true⟩
      else ⟨(d.scriptBody code name).complete m .tagBlock, tags, true⟩ := by
  have hahead := hattributes.ahead_eq ha
  have hclose := (hattributes.trans (.bump hattributes.held hahead)).flush_literal
  have hat : (c.attributes code).2.at? .openAngle = false := by simp [at?, current_cons hahead, ht]
  have heat : (c.attributes code).2.eat .slash = (false, (c.attributes code).2) :=
    eat_false hahead (by simp [Token.kindAt, ht])
  refine ⟨_, hclose, ?_⟩
  rw [restOfStartTag]
  dsimp only
  rw [hat, if_neg Bool.false_ne_true, heat, closeAngle_of_ahead hahead ht]
  simp only [hclose.context_eq, hvoid, hscript]
  cases scriptHoldsMarkup c.context.options (c.attributes code).1 <;> simp

/-- A script is left open if its attributes say that it holds markup. Otherwise it is read through
its end tag. -/
theorem tag_script_forms (code : EmbeddedCode σ) (tags : OpenTags) {as : List AttributeForm}
    (has : ∀ a ∈ as, a.Written) {rest : List Char} (hh : c.held = []) (ho : c.overrun = 0)
    (hflag : c.context.ephemeralLineEnding = false) (hoptions : c.context.options = {})
    (ha : c.ahead = Token.lex (scriptStart as ++ '>' :: rest)) :
    ∃ d, Takes (scriptTokens as ++ [gt]) (scriptPieces as ++ [.leaf gt]) c.start.2 d ∧
      c.tag code tags =
        if DeclaresHtml as then ⟨d, ⟨scriptName, c.offset, some c.start.1⟩ :: tags, true⟩
        else ⟨(d.scriptBody code scriptName).complete c.start.1 .tagBlock, tags, true⟩ := by
  have htexts : ∀ t ∈ c.ahead, t.text ≠ [] := by
    rw [ha]
    exact fun t ht => Token.text_ne_nil_of_mem_lex ht
  have hline : c.ahead = lt :: Token.lex scriptName ++
      (as.flatMap AttributeForm.tokens ++ gt :: Token.lex rest) := by
    rw [ha, lex_scriptStart has, scriptTokens]
    simp
  have hstop : ∀ t ∈ (as.flatMap AttributeForm.tokens ++ gt :: Token.lex rest).head?, t.kind ≠ .text := by
    cases as <;> rintro t ⟨⟩ <;> decide
  obtain ⟨htag, hname⟩ := tag_start code tags scriptName_named.written hh hline hstop
    (.inr (by rw [hoptions]; decide))
  have hoverrun : c.start.2.bump.bangEscape.eatName.overrun = 0 := by
    have hbump : c.start.2.bump.ahead = Token.lex scriptName ++
        (as.flatMap AttributeForm.tokens ++ gt :: Token.lex rest) := by
      rw [ahead_bump, ahead_start, hline]
      rfl
    rw [bangEscape_eatName (by decide) (by decide) hbump hstop, overrun_bumpN]
    exact (overrun_bumpN c.start.2 1).trans ((overrun_flush c _).trans ho)
  generalize c.start.2.bump.bangEscape.eatName = e at htag hname hoverrun
  have hcontext : e.context = c.context := hname.context_eq.trans (context_flush c _)
  have hnext := hname.ahead_eq ((ahead_start c).trans hline)
  obtain ⟨hcovers, hattributes⟩ := attributes_forms code has rfl hname.held
    (by rw [hcontext, hflag]) (fun t ht => htexts t (by rw [hline]; simp [ht])) hnext
  obtain ⟨d, htakes, hrest⟩ := restOfStartTag_script tags c.start.1 c.offset hcovers.toTakes hnext rfl
    (show e.context.options.isVoidElement scriptName = false by rw [hcontext, hoptions]; decide)
    (by rw [hcontext, hoptions]; decide)
  refine ⟨d, ?_, ?_⟩
  · simpa [scriptTokens, scriptPieces] using hname.trans htakes
  · rw [htag, hrest, hattributes hoverrun, hcontext, hoptions]
    simp only [declaresHtml_iff]

/-! ## The body of a script -/

/-- The first end tag of the script's name, with everything in front of it read. -/
theorem Takes.scriptEnd (code : EmbeddedCode σ) (hn : Markup.Named name) (hh : c.held = [])
    (hflag : c.context.ephemeralLineEnding = false) (hne : ∀ t ∈ us, t.text ≠ [])
    (hus : ∀ t ∈ us, Passes .openAngle t) (ha : c.ahead = us ++ endTokens name) (bound : Nat) :
    Takes (us ++ endTokens name) (us.map .leaf ++ [.part .tagBlock (endPieces name)]) c
      (scriptBodyFrom code name (bound + 1) c) := by
  have hskip : Takes us (us.map .leaf) c (c.skipTo code .openAngle) :=
    .skipTo code hh hflag hne ha hus (by rintro t ⟨⟩; rfl)
  rw [scriptBodyFrom]
  generalize c.skipTo code .openAngle = d at hskip
  have hd : d.ahead = lt :: slash :: (Token.lex name ++ [gt]) := hskip.ahead_eq ha
  have hstop : ∀ t ∈ [gt].head?, t.kind ≠ .text := head_gt
  have hname : d.tagNameAt 2 = name := by
    refine hn.written.tagNameAt_eq ?_ hstop
    rw [hd]
    rfl
  have hsame : d.nth 1 = .slash ∧ Text.sameIgnoringCase (d.tagNameAt 2) name = true := by
    rw [hname]
    exact ⟨by rw [nth, hd]; rfl, Text.sameIgnoringCase_iff.mpr rfl⟩
  dsimp only
  rw [if_neg (by simp [atEnd, hd]), if_pos hsame]
  have hstart : d.start.2.ahead = [lt, slash] ++ (Token.lex name ++ [gt]) := (ahead_start d).trans hd
  have hopen : Takes [lt, slash] [.leaf lt, .leaf slash] d.start.2 (d.start.2.bumpN 2) :=
    .bumpN ((held_start d).trans hskip.held) hstart
  have heat := hopen.trans (.eatName hopen.held (hopen.ahead_eq hstart) hn.text hstop)
  have hcontext : (d.start.2.bumpN 2).eatName.context = c.context :=
    heat.context_eq.trans ((context_flush d _).trans hskip.context_eq)
  generalize (d.start.2.bumpN 2).eatName = e at heat hcontext
  have he : e.ahead = [] ++ [gt] := by
    refine heat.ahead_eq ?_
    rw [hstart]
    simp
  have hread : Takes [] [] e (e.skipTo code .closeAngle) := by
    refine Takes.skipTo code heat.held (by rw [hcontext, hflag]) (List.forall_mem_nil _) he
      (List.forall_mem_nil _) ?_
    rintro t ⟨⟩
    rfl
  have hgt : (e.skipTo code .closeAngle).ahead = [gt] := hread.ahead_eq he
  rw [closeAngle_of_ahead hgt rfl]
  have hall := ((heat.trans hread).trans (.bump hread.held hgt)).node .tagBlock (by decide)
  simpa [endTokens, endPieces] using hskip.trans hall

/-- A body without code, in which no end tag of the script's name begins, is read with the end tag
behind it. -/
theorem Takes.scriptBodyFrom (code : EmbeddedCode σ) (hn : Markup.Named name) (hh : c.held = [])
    (hflag : c.context.ephemeralLineEnding = false) (hne : ∀ t ∈ us, t.text ≠ [])
    (hus : ∀ t ∈ us, t.kind ≠ .transition ∧ t.kind ≠ .commentOpen ∧ t.kind ≠ .endOfInput)
    (hbody : Token.Unclosed name us) (ha : c.ahead = us ++ endTokens name) {bound : Nat}
    (hb : us.length < bound) :
    Takes (us ++ endTokens name) (us.map .leaf ++ [.part .tagBlock (endPieces name)]) c
      (scriptBodyFrom code name bound c) := by
  induction bound generalizing us c with
  | zero => exact absurd hb (Nat.not_lt_zero _)
  | succ bound ih =>
    obtain ⟨hsplit, hfront, hback⟩ := run_spec (·.kind != .openAngle) us
    generalize us.takeWhile (·.kind != .openAngle) = front at hsplit hfront
    generalize us.dropWhile (·.kind != .openAngle) = back at hsplit hback
    subst hsplit
    have hpass : ∀ t ∈ front, Passes .openAngle t := fun t ht =>
      ⟨by simpa using hfront t ht, hus t (List.mem_append_left _ ht)⟩
    cases back with
    | nil =>
      rw [List.append_nil] at hne ha ⊢
      exact .scriptEnd code hn hh hflag hne hpass ha bound
    | cons t back =>
      have ht : t.kind = .openAngle := by simpa using hback t rfl
      rw [List.append_assoc] at ha
      have hskip : Takes front (front.map .leaf) c (c.skipTo code .openAngle) := by
        refine Takes.skipTo code hh hflag (fun t ht => hne t (List.mem_append_left _ ht)) ha hpass ?_
        rintro u ⟨⟩
        exact ht
      have hnext := hskip.ahead_eq ha
      have hrest : Token.Unclosed name (t :: back) := fun u v rest hsuffix =>
        hbody u v rest (hsuffix.trans (List.suffix_append _ _))
      have hbump := hskip.trans (.bump hskip.held hnext)
      rw [scriptBodyFrom_pass (by simp [hnext]) (tagNameAt_other hn.text hrest ht hnext)]
      have hgo := ih hbump.held (by rw [hbump.context_eq, hflag]) (fun u hu => hne u (by simp [hu]))
        (fun u hu => hus u (by simp [hu]))
        (fun u v rest hsuffix => hrest u v rest (hsuffix.trans (List.suffix_cons _ _)))
        (by rw [ahead_bump, hnext]; rfl)
        (by simp only [List.length_append, List.length_cons] at hb; omega)
      simpa using hbump.trans hgo

theorem Takes.scriptBody (code : EmbeddedCode σ) (hn : Markup.Named name) (hh : c.held = [])
    (hflag : c.context.ephemeralLineEnding = false) (hne : ∀ t ∈ us, t.text ≠ [])
    (hus : ∀ t ∈ us, t.kind ≠ .transition ∧ t.kind ≠ .commentOpen ∧ t.kind ≠ .endOfInput)
    (hbody : Token.Unclosed name us) (ha : c.ahead = us ++ endTokens name) :
    Takes (us ++ endTokens name) (us.map .leaf ++ [.part .tagBlock (endPieces name)]) c
      (c.scriptBody code name) :=
  .scriptBodyFrom code hn hh hflag hne hus hbody ha
    (Nat.lt_succ_of_le (length_le_unclaimed ha hne))

end Cursor

namespace Parse

open Cursor AttributeForm Markup

variable {as : List AttributeForm} {body : List Char} {source : String} {used : List Token}
  {ps inner : List Piece}

/-- A unit that is taken whole is parsed to the end without a complaint. -/
theorem parse_of_takes (h : Takes used ps (unitStart source) (unitEnd source))
    (ha : (unitEnd source).ahead = []) : ∃ p, parse source = .ok p ∧ p.diagnostics = [] ∧
      p.unparsedText? = none ∧ p.tree.tagSpans 0 = Piece.tagSpansOf 0 ps := by
  have hv := h.adds.view (views_unitStart source)
  have hrest : (unitEnd source).rest = [] := by
    rw [Cursor.rest, h.held, ha]
    rfl
  have hnone : (unitEnd source).diagnostics = #[] := h.adds.diagnostics
  obtain ⟨p, hp, -, hdiagnostics, htree, hunparsed⟩ := tagSpans_of_views hv
  exact ⟨p, hp, by rw [hdiagnostics, hnone], by rw [hunparsed, if_pos hrest], by rw [htree]; rfl⟩

/-- A script with these attributes and this body. -/
def scriptWith (as : List AttributeForm) (body : List Char) : String :=
  String.ofList (scriptStart as ++ '>' :: (body ++ printEnd scriptName))

/-- Nothing is reported and nothing is left. The tag block of the script takes all of the source and has
these tag blocks inside, and behind them that of the end tag. -/
structure ScriptRead (as : List AttributeForm) (body : List Char) (inside : List TagSpan)
    (p : Parse Unit) : Prop where
  diagnostics : p.diagnostics = []
  unparsed : p.unparsedText? = none
  spans : p.tree.tagSpans 0 =
    [.span 0 (Text.width (scriptWith as body).toList) (inside ++
      [.span (Text.width (scriptStart as ++ '>' :: body)) (Text.width (scriptWith as body).toList) []])]

/-- Behind a unit that takes the whole source nothing is claimed. -/
theorem endTags_of_end {d : Cursor Unit} (h : d.ahead = []) : endTags ⟨d, [], true⟩ = d.flush .literal :=
  endTags_eq (by rw [h]; decide) (by rw [h]; decide)

/-- The pieces of a script, with what stands between its tags. -/
def elementPieces (as : List AttributeForm) (inner : List Piece) : List Piece :=
  [.part .tagBlock (scriptPieces as ++ .leaf gt :: (inner ++ [.part .tagBlock (endPieces scriptName)]))]

theorem textOf_scriptPieces (as : List AttributeForm) :
    Piece.textOf (scriptPieces as) = scriptStart as := by
  have hvalue (v : ValueForm) : Piece.textOf v.pieces = v.print := by
    cases v <;> simp [ValueForm.pieces, ValueForm.print, Piece.textOf, Piece.text, quote]
  have hall : Piece.textOf (as.flatMap AttributeForm.pieces) = as.flatMap AttributeForm.print := by
    induction as with
    | nil => rfl
    | cons a as ih =>
      obtain ⟨name, value?⟩ := a
      cases value? <;> simp [AttributeForm.pieces, bodyPieces, AttributeForm.print, Piece.textOf,
        Piece.text, hvalue, ih]
  simp [scriptPieces, scriptStart, Piece.textOf, Piece.text, hall, lt]

theorem tagSpansOf_scriptPieces (as : List AttributeForm) (start : Nat) :
    Piece.tagSpansOf start (scriptPieces as) = [] := by
  have hvalue (v : ValueForm) (start : Nat) : Piece.tagSpansOf start v.pieces = [] := by
    cases v <;> simp [ValueForm.pieces, Piece.tagSpansOf, Piece.tagSpans]
  have hall (start : Nat) : Piece.tagSpansOf start (as.flatMap AttributeForm.pieces) = [] := by
    induction as generalizing start with
    | nil => rfl
    | cons a as ih =>
      obtain ⟨name, value?⟩ := a
      cases value? <;> simp [AttributeForm.pieces, bodyPieces, Piece.tagSpansOf, Piece.tagSpans,
        Piece.tagSpansOf_append, hvalue, ih]
  simp [scriptPieces, Piece.tagSpansOf, Piece.tagSpans, Piece.tagSpansOf_append, hall]

theorem textOf_elementPieces (as : List AttributeForm) (hinner : Piece.textOf inner = body) :
    Piece.textOf (elementPieces as inner) = (scriptWith as body).toList := by
  simp [elementPieces, scriptWith, Piece.textOf, Piece.text, textOf_scriptPieces, textOf_endPieces,
    hinner, gt]

theorem tagSpansOf_elementPieces (hinner : Piece.textOf inner = body) :
    Piece.tagSpansOf 0 (elementPieces as inner) =
      [.span 0 (Text.width (scriptWith as body).toList)
        (Piece.tagSpansOf (Text.width (scriptStart as ++ ['>'])) inner ++
          [.span (Text.width (scriptStart as ++ '>' :: body)) (Text.width (scriptWith as body).toList)
            []])] := by
  have htext := textOf_elementPieces as hinner
  rw [elementPieces, Piece.textOf, Piece.textOf, List.append_nil, Piece.text] at htext
  rw [elementPieces, Piece.tagSpansOf, Piece.tagSpansOf, Piece.tagSpans, if_pos rfl, htext,
    Piece.tagSpansOf_append, tagSpansOf_scriptPieces, textOf_scriptPieces]
  simp only [Piece.tagSpansOf, Piece.tagSpans, Piece.tagSpansOf_append, hinner, tagSpansOf_endPieces,
    textOf_endPieces, if_pos, Piece.text]
  have hfront : 0 + Text.width (scriptStart as) + Text.width gt.text =
      Text.width (scriptStart as ++ ['>']) := by
    rw [Text.width_append, Nat.zero_add]
    rfl
  have hbehind : Text.width (scriptStart as ++ ['>']) + Text.width body =
      Text.width (scriptStart as ++ '>' :: body) := by
    simp only [Text.width_append, Text.width]
    omega
  have hstop : Text.width (scriptStart as ++ '>' :: body) + Text.width (printEnd scriptName) =
      0 + Text.width (scriptWith as body).toList := by
    rw [scriptWith, String.toList_ofList]
    simp only [Text.width_append, Text.width]
    omega
  rw [hfront, hbehind, hstop, Nat.zero_add, List.nil_append, List.nil_append]
  simp

/-- A script that is taken whole is read as its pieces say. -/
theorem scriptRead_of_takes (as : List AttributeForm) (hinner : Piece.textOf inner = body)
    (h : Takes used (elementPieces as inner) (unitStart (scriptWith as body))
      (unitEnd (scriptWith as body))) (ha : (unitEnd (scriptWith as body)).ahead = []) :
    ∃ p, parse (scriptWith as body) = .ok p ∧
      ScriptRead as body (Piece.tagSpansOf (Text.width (scriptStart as ++ ['>'])) inner) p := by
  obtain ⟨p, hp, hdiagnostics, hunparsed, hspans⟩ := parse_of_takes h ha
  exact ⟨p, hp, hdiagnostics, hunparsed, by rw [hspans, tagSpansOf_elementPieces hinner]⟩

/-- The start tag of a script is read, and what comes behind it is left. -/
theorem tag_scriptWith (has : ∀ a ∈ as, a.Written) (body : List Char) :
    ∃ d, Takes (scriptTokens as ++ [gt]) (scriptPieces as ++ [.leaf gt])
        (unitStart (scriptWith as body)).start.2 d ∧
      d.ahead = Token.lex body ++ endTokens scriptName ∧ d.context = { options := {} } ∧
      (unitStart (scriptWith as body)).tag .implicit [] =
        if DeclaresHtml as then
          ⟨d, [⟨scriptName, 0, some (unitStart (scriptWith as body)).start.1⟩], true⟩
        else
          ⟨(d.scriptBody .implicit scriptName).complete (unitStart (scriptWith as body)).start.1
            .tagBlock, [], true⟩ := by
  have hahead : (unitStart (scriptWith as body)).ahead =
      Token.lex (scriptStart as ++ '>' :: (body ++ printEnd scriptName)) := by
    rw [ahead_unitStart, scriptWith, String.toList_ofList]
  have hbody : Token.lex (body ++ printEnd scriptName) = Token.lex body ++ endTokens scriptName := by
    have hend := lex_end scriptName []
    rw [List.append_nil, Token.lex, List.append_nil] at hend
    rw [← hend, printEnd, Token.lex_append_solid solid_openAngle]
  obtain ⟨d, htakes, htag⟩ := tag_script_forms .implicit [] has rfl rfl rfl rfl hahead
  refine ⟨d, htakes, htakes.ahead_eq ?_, htakes.context_eq.trans (context_flush _ _), htag⟩
  rw [ahead_start, hahead, lex_scriptStart has, hbody, List.append_assoc]
  rfl

theorem current_scriptWith (has : ∀ a ∈ as, a.Written) (body : List Char) :
    (unitStart (scriptWith as body)).current = .openAngle := by
  have hahead : (unitStart (scriptWith as body)).ahead =
      Token.lex (scriptStart as ++ '>' :: (body ++ printEnd scriptName)) := by
    rw [ahead_unitStart, scriptWith, String.toList_ofList]
  rw [lex_scriptStart has] at hahead
  exact current_cons hahead

/-- The body of a script that does not hold markup is one text up to the end tag. -/
theorem parse_script_opaque (has : ∀ a ∈ as, a.Written) (hhtml : ¬ DeclaresHtml as)
    (hat : '@' ∉ body) (hbody : Text.Unclosed scriptName body) :
    ∃ p, parse (scriptWith as body) = .ok p ∧ ScriptRead as body [] p := by
  obtain ⟨d, htakes, hahead, hcontext, htag⟩ := tag_scriptWith has body
  rw [if_neg hhtml] at htag
  have hpass : ∀ t ∈ Token.lex body, t.kind ≠ .transition ∧ t.kind ≠ .commentOpen ∧
      t.kind ≠ .endOfInput := fun t ht =>
    ⟨Token.kind_ne_of_mem_lex ht rfl (by simpa [Token.starters] using hat),
      Token.kind_ne_of_mem_lex ht rfl (by simpa [Token.starters] using hat),
      Token.kind_ne_of_mem_lex ht rfl (by simp [Token.starters])⟩
  have hread := Takes.scriptBody .implicit scriptName_named htakes.held (by rw [hcontext])
    (fun t ht => Token.text_ne_nil_of_mem_lex ht) hpass (Token.unclosed_lex hbody) hahead
  have hnode := (htakes.trans hread).node .tagBlock (by decide)
  have hdone : ((d.scriptBody .implicit scriptName).complete
      (unitStart (scriptWith as body)).start.1 .tagBlock).ahead = [] := by
    rw [ahead_complete]
    exact hread.ahead_eq (by rw [hahead, List.append_nil])
  have hunit : unitEnd (scriptWith as body) = ((d.scriptBody .implicit scriptName).complete
      (unitStart (scriptWith as body)).start.1 .tagBlock).flush .literal := by
    rw [unitEnd_tag (current_scriptWith has body), htag]
    exact endTags_of_end hdone
  have hall := hnode.flush_literal
  rw [← hunit] at hall
  have hpieces : Piece.textOf ((Token.lex body).map .leaf) = body := by
    rw [Piece.textOf_map_leaf, Token.textOf_lex]
  have hresult := scriptRead_of_takes as hpieces (by simpa [elementPieces] using hall)
    (by rw [hunit, ahead_flush, hdone])
  rwa [Piece.tagSpansOf_map_leaf] at hresult

/-- A script that holds markup is an element like any other. -/
theorem parse_script_markup (has : ∀ a ∈ as, a.Written) (hhtml : DeclaresHtml as) {ms : List Markup}
    (hms : WellFormedOf ms) : ∃ p, parse (scriptWith as (printOf ms)) = .ok p ∧
      ScriptRead as (printOf ms) (spansOf (Text.width (scriptStart as ++ ['>'])) ms) p := by
  obtain ⟨d, htakes, hahead, hcontext, htag⟩ := tag_scriptWith has (printOf ms)
  rw [if_pos hhtml] at htag
  have htokens : Token.lex (printOf ms) = tokensOf ms := by
    have hlex := lex_printOf ms hms []
    rw [Token.lex_append_solid solid_openAngle] at hlex
    exact List.append_cancel_right hlex
  rw [htokens] at hahead
  obtain ⟨used, post, ps, e, hused, hpieces, hpost, hchildren, hwalk⟩ := walksOf .implicit ms hms
    htakes.held (show d.context = { options := { designTime := false } } from hcontext)
    (List.cons_ne_nil ⟨scriptName, 0, some (unitStart (scriptWith as (printOf ms))).start.1⟩ [])
    skipped_nil (show d.ahead = [] ++ (tokensOf ms ++ (endTokens scriptName ++ [])) by simp [hahead])
    (unvoided_end scriptName_named (by decide))
  rw [List.nil_append] at hused
  rw [List.map_nil, List.nil_append] at hpieces
  have hnext : e.ahead = post ++ (endTokens scriptName ++ []) := by
    refine hchildren.ahead_eq ?_
    rw [hahead, hused]
    simp
  obtain ⟨k, hend, hclose⟩ := walk_end .implicit
    ⟨scriptName, 0, some (unitStart (scriptWith as (printOf ms))).start.1⟩ [] scriptName_named
    hchildren.held (show e.context = { options := { designTime := false } } from
      hchildren.context_eq.trans hcontext) hpost hnext (Text.sameIgnoringCase_iff.mpr rfl)
    (.inr (by decide))
  have hnode := ((htakes.trans hchildren).trans hend).node .tagBlock (by decide)
  have hdone : (k.complete (unitStart (scriptWith as (printOf ms))).start.1 .tagBlock).ahead = [] := by
    rw [ahead_complete]
    exact hend.ahead_eq (by rw [hnext]; simp)
  have hunit : unitEnd (scriptWith as (printOf ms)) =
      (k.complete (unitStart (scriptWith as (printOf ms))).start.1 .tagBlock).flush .literal := by
    have hcount : tagCountOf ms < (unitStart (scriptWith as (printOf ms))).unclaimed := by
      have hsource := htakes.ahead
      rw [ahead_start, hahead] at hsource
      have hlen := length_le_unclaimed (hsource.trans (List.append_nil _).symm) fun t ht => by
        rw [← hsource, ahead_unitStart] at ht
        exact Token.text_ne_nil_of_mem_lex ht
      have hle := tagCountOf_le ms
      simp only [List.length_append, List.length_cons] at hlen
      omega
    obtain ⟨bound, hbound⟩ := Nat.exists_eq_add_of_lt hcount
    obtain ⟨complete, hstep⟩ := hwalk (bound + 1) true
    rw [unitEnd_tag (current_scriptWith has _), htag, resume_of_ne_nil _ _ (List.cons_ne_nil _ _), hbound,
      Nat.add_assoc, hstep, hclose]
    exact endTags_of_end hdone
  have hall := hnode.flush_literal
  rw [← hunit] at hall
  have hshown : [.part .tagBlock (scriptPieces as ++ [.leaf gt] ++ ps ++
      (post.map .leaf ++ [.part .tagBlock (endPieces scriptName)]))] =
        elementPieces as (piecesOf ms) := by
    rw [hpieces]
    simp [elementPieces]
  rw [hshown] at hall
  have hresult := scriptRead_of_takes as (textOf_piecesOf ms) hall (by rw [hunit, ahead_flush, hdone])
  rwa [tagSpansOf_piecesOf] at hresult

/-- Attributes are read as they are written, up to the `>`. They decide what a script is: if the first
named `type` declares markup, the script is an element that stays open behind its start tag, and
otherwise its body is one text. -/
theorem attributes_decide_script (has : ∀ a ∈ as, a.Written) :
    (∀ {σ : Type} (code : EmbeddedCode σ) (c : Cursor σ) (rest : List Char), c.held = [] →
      c.overrun = 0 → c.context.ephemeralLineEnding = false →
      c.ahead = Token.lex (as.flatMap AttributeForm.print ++ '>' :: rest) →
      (c.attributes code).1 = as.map toAttribute ∧
        (c.attributes code).2.ahead = Token.lex ('>' :: rest)) ∧
    (∀ {σ : Type} (code : EmbeddedCode σ) (c : Cursor σ) (tags : OpenTags) (rest : List Char),
      c.held = [] → c.overrun = 0 → c.context.ephemeralLineEnding = false →
      c.context.options = {} → c.ahead = Token.lex (scriptStart as ++ '>' :: rest) →
      ∃ d, d.ahead = Token.lex rest ∧ c.tag code tags =
        if DeclaresHtml as then ⟨d, ⟨scriptName, c.offset, some c.start.1⟩ :: tags, true⟩
        else ⟨(d.scriptBody code scriptName).complete c.start.1 .tagBlock, tags, true⟩) ∧
    (DeclaresHtml as → ∀ ms, WellFormedOf ms → ∃ p, parse (scriptWith as (printOf ms)) = .ok p ∧
      ScriptRead as (printOf ms) (spansOf (Text.width (scriptStart as ++ ['>'])) ms) p) ∧
    (¬ DeclaresHtml as → ∀ body, '@' ∉ body → Text.Unclosed scriptName body →
      ∃ p, parse (scriptWith as body) = .ok p ∧ ScriptRead as body [] p) := by
  refine ⟨fun code c rest hh ho hflag ha => ?_, fun code c tags rest hh ho hflag hoptions ha => ?_,
    fun hhtml ms hms => parse_script_markup has hhtml hms,
    fun hhtml body hat hbody => parse_script_opaque has hhtml hat hbody⟩
  · have hline := ha
    rw [lex_prints has, Token.lex_whole '>' .closeAngle rfl] at hline
    obtain ⟨hcovers, hread⟩ := attributes_forms code has rfl hh hflag (fun t ht =>
      Token.text_ne_nil_of_mem_lex (ha ▸ hline ▸ List.mem_append_left _ ht)) hline
    refine ⟨hread ho, ?_⟩
    rw [hcovers.ahead_eq hline, Token.lex_whole '>' .closeAngle rfl]
  · obtain ⟨d, htakes, htag⟩ := tag_script_forms code tags has hh ho hflag hoptions ha
    refine ⟨d, htakes.ahead_eq ?_, htag⟩
    rw [ahead_start, ha, lex_scriptStart has, List.append_assoc]
    rfl

/-- `<script src=a=b'c async TYPE=' Text/HTML ' type="module">` holds markup. In front of another value of
`type` the same value does not count. -/
theorem attributes_decide_script_first :
    let html : List AttributeForm := [⟨"src".toList, some (.unquoted "a=b'c".toList)⟩,
      ⟨"async".toList, none⟩, ⟨"TYPE".toList, some (.singleQuoted " Text/HTML\u00a0".toList)⟩,
      ⟨"type".toList, some (.doubleQuoted "module".toList)⟩]
    let other : List AttributeForm := [⟨"type".toList, none⟩,
      ⟨"type".toList, some (.doubleQuoted "text/html".toList)⟩]
    let c : Cursor Unit :=
      { ahead := Token.lex (html.flatMap AttributeForm.print ++ ['>']), context := {}, host := () }
    ((∀ a ∈ html, a.Written) ∧ DeclaresHtml html ∧
      (c.attributes .implicit).1 = [⟨"src".toList, some "a=b'c".toList⟩, ⟨"async".toList, none⟩,
        ⟨"TYPE".toList, some " Text/HTML\u00a0".toList⟩, ⟨"type".toList, some "module".toList⟩] ∧
      ∃ p, parse (scriptWith html "<i/>".toList) = .ok p ∧
        ScriptRead html "<i/>".toList [.span 58 62 []] p) ∧
    ((∀ a ∈ other, a.Written) ∧ ¬ DeclaresHtml other ∧
      ∃ p, parse (scriptWith other "<i/>".toList) = .ok p ∧ ScriptRead other "<i/>".toList [] p) := by
  intro html other c
  have hhtml : ∀ a ∈ html, a.Written := by decide
  have hother : ∀ a ∈ other, a.Written := by decide
  have hdeclares : DeclaresHtml html := by decide
  have hnot : ¬ DeclaresHtml other := by decide
  have hms : WellFormedOf [.selfClosed "i".toList []] :=
    ⟨⟨⟨by decide, by decide⟩, nofun⟩, by simp [Markup.isText], trivial⟩
  have hspans : spansOf (Text.width (scriptStart html ++ ['>'])) [.selfClosed "i".toList []] =
      [.span 58 62 []] := by
    have hfront : Text.width (scriptStart html ++ ['>']) = 58 := by decide +kernel
    have helement : Text.width (Markup.print (.selfClosed "i".toList [])) = 4 := by decide +kernel
    rw [spansOf, spans, hfront, helement]
    rfl
  have hclosed : Text.Unclosed scriptName "<i/>".toList := by decide
  obtain ⟨hattributes, -, hmarkup, -⟩ := attributes_decide_script hhtml
  obtain ⟨-, -, -, hopaque⟩ := attributes_decide_script hother
  have hread := hmarkup hdeclares _ hms
  rw [hspans] at hread
  exact ⟨⟨hhtml, hdeclares, (hattributes .implicit c [] rfl rfl rfl rfl).1, hread⟩, hother, hnot,
    hopaque hnot "<i/>".toList (by decide) hclosed⟩

end Parse

end TemplateMarkup
