import TemplateMarkup.Proofs.LiteralScans
import TemplateMarkup.Proofs.RoundTrip

/-! # Escaping the transition

An element `p` is parsed whose content is a text with every `@` doubled. What it
is read as is the text, unless an `@` of the text has an asterisk next to it. -/

namespace TemplateMarkup

namespace Cursor

open TemplateMarkup.Tree

variable {σ : Type} {c d e : Cursor σ} {text : List Char} {used rest : List Token}

/-! ## Tags around the text -/

namespace Shows

variable {f : List Tree} {fs : List (List Tree)}

theorem bumpN (h : Shows c fs) (hh : c.held = []) (n : Nat) : Shows (c.bumpN n) fs :=
  h.same (by rw [bumpN_eq hh]) (by rw [bumpN_eq hh]) (tokens_bumpN c n)

/-- The next tokens become a node of literal text behind a started one. -/
theorem startTokens (h : Shows c (f :: fs)) (hp : c.pending = []) (hh : c.held = [])
    (ha : c.ahead = used ++ rest) : Shows (c.start.2.bumpN used.length) ([] :: f :: fs) ∧
      (c.start.2.bumpN used.length).pending = used.reverse ∧
      c.start.1.index = (framesEvents (f :: fs)).length := by
  obtain ⟨hstart, hindex⟩ := h.start
  rw [hp, flushTrees_nil, List.append_nil] at hstart hindex
  have hheld : c.start.2.held = [] := (held_start c).trans hh
  refine ⟨hstart.bumpN hheld _, ?_, hindex⟩
  rw [bumpN_eq hheld]
  simp [ha, Cursor.start, hp, flush_of_pending hp]

end Shows

theorem flushTrees_reverse (hne : used ≠ []) (kind : Kind) :
    flushTrees kind used.reverse = [.node kind (used.map ofToken)] := by
  rw [flushTrees, if_neg (by simpa using hne), List.reverse_reverse]

section

variable {f : List Tree} {fs : List (List Tree)} {lt slash gt : Token} {ts : List Token}

theorem bangEscape_eatName (hne : ts ≠ []) (hts : ∀ t ∈ ts, t.kind = .text)
    (ha : c.ahead = ts ++ rest) (hstop : ∀ t ∈ rest.head?, t.kind ≠ .text) :
    c.bangEscape.eatName = c.bumpN ts.length := by
  rw [bangEscape, bangEscapeAt_of_text (n := 0) ha hne hts, if_neg Bool.false_ne_true]
  exact bumpWhile_eq ha (by simpa using hts) (by simpa using hstop)

/-- A start tag without attributes that stays open. -/
theorem tag_start_shows (code : EmbeddedCode σ) (tags : OpenTags) (hs : Shows c (f :: fs))
    (hp : c.pending = []) (hh : c.held = []) (hne : ts ≠ []) (hts : ∀ t ∈ ts, t.kind = .text)
    (ha : c.ahead = (lt :: ts ++ [gt]) ++ rest) (hgt : gt.kind = .closeAngle)
    (hvoid : c.context.options.isVoidElement (Token.textOf ts) = false)
    (hscript : c.context.options.isScriptTag (Token.textOf ts) = false)
    (hplace : tags ≠ [] ∨ c.context.options.isTextTag (Token.textOf ts) = false) :
    ∃ d m, c.tag code tags = ⟨d, ⟨Token.textOf ts, c.offset, some m⟩ :: tags, true⟩ ∧
      Shows d ([.node .literal ((lt :: ts ++ [gt]).map ofToken)] :: f :: fs) ∧
      m.index = (framesEvents (f :: fs)).length ∧ d.ahead = rest ∧ d.held = [] ∧ d.pending = [] ∧
      d.context = c.context ∧ d.diagnostics = c.diagnostics := by
  have hline : c.ahead = lt :: ts ++ gt :: rest := by simp [ha]
  have hstop : ∀ t ∈ (gt :: rest).head?, t.kind ≠ .text := by
    rintro t ⟨⟩
    rw [hgt]
    decide
  obtain ⟨htag, hname⟩ := tag_start code tags (Written.plain hne hts) hh hline hstop hplace
  have hread : c.start.2.bump.bangEscape.eatName.bump =
      c.start.2.bumpN (lt :: ts ++ [gt]).length := by
    have hahead : c.start.2.bump.ahead = ts ++ gt :: rest := by
      rw [ahead_bump, ahead_start, hline]
      rfl
    rw [bangEscape_eatName hne hts hahead hstop, bump_bumpN]
    simp [Cursor.bumpN]
  have hcontext := hname.context_eq.trans (context_flush c .literal)
  generalize c.start.2.bump.bangEscape.eatName = e at htag hname hread hcontext
  have hnext := hname.ahead_eq ((ahead_start c).trans hline)
  have hnone : e.attributes code = ([], e) := attributes_atTagEnd (.inl (by rw [hnext]; exact hgt))
  have htakes : Takes [] [] e (e.attributes code).2 := by
    rw [hnone]
    exact Takes.refl hname.held
  obtain ⟨hrest, hclose⟩ := restOfStartTag_open tags c.start.1 c.offset htakes hnext hgt
    (by rw [hcontext]; exact hvoid) (by rw [hcontext]; exact hscript)
  rw [hnone, hread] at hrest hclose
  obtain ⟨hshows, hpending, hindex⟩ := hs.startTokens hp hh ha
  have hflush := hshows.flush .literal
  rw [hpending, flushTrees_reverse (by simp)] at hflush
  exact ⟨_, _, htag.trans hrest, hflush, hindex, hclose.ahead_eq hnext, hclose.held,
    pending_flush _ _, hclose.context_eq.trans hcontext,
    hclose.adds.diagnostics.trans (hname.adds.diagnostics.trans (diagnostics_flush c _))⟩

/-- The end tag of the innermost element, which it closes. -/
theorem tag_end_shows {g : List Tree} {u : OpenTag} {m : Marker} (code : EmbeddedCode σ)
    (tags : OpenTags) (hs : Shows c (f :: g :: fs)) (hp : c.pending = []) (hh : c.held = [])
    (hne : ts ≠ []) (hts : ∀ t ∈ ts, t.kind = .text)
    (ha : c.ahead = (lt :: slash :: ts ++ [gt]) ++ rest) (hslash : slash.kind = .slash)
    (hgt : gt.kind = .closeAngle) (hblock : u.block? = some m)
    (hm : m.index = (framesEvents (g :: fs)).length)
    (hsame : Text.sameIgnoringCase u.name (Token.textOf ts) = true)
    (hplace : tags ≠ [] ∨ c.context.options.isTextTag (Token.textOf ts) = false) :
    ∃ d, c.tag code (u :: tags) = ⟨d, tags, true⟩ ∧
      Shows d ((g ++ [.node .tagBlock (f ++
        [.node .tagBlock [.node .literal ((lt :: slash :: ts ++ [gt]).map ofToken)]])]) :: fs) ∧
      d.ahead = rest ∧ d.held = [] ∧ d.pending = [] ∧ d.diagnostics = c.diagnostics := by
  have hline : c.ahead = lt :: slash :: ts ++ gt :: rest := by simp [ha]
  have hw := Written.plain hne hts
  have hstop : ∀ t ∈ (gt :: rest).head?, t.kind ≠ .text := by
    rintro t ⟨⟩
    rw [hgt]
    decide
  have htag := tag_matching code u tags hw hh hline hslash hgt hsame hplace
  have hend := (Takes.endTagBlock hw hh hline hgt (Token.textOf ts)).2
  have hread : (c.endTagBlock (Token.textOf ts)).2 =
      (c.start.2.bumpN (lt :: slash :: ts ++ [gt]).length).complete c.start.1 .tagBlock := by
    have hahead : (c.start.2.bumpN 2).ahead = ts ++ gt :: rest := by
      rw [ahead_bumpN, ahead_start, hline]
      rfl
    have hnext : ((c.start.2.bumpN 2).bumpN ts.length).ahead = gt :: rest := by
      rw [ahead_bumpN, hahead, List.drop_left]
    rw [endTagBlock]
    dsimp only
    rw [bangEscape_eatName hne hts hahead hstop, acceptUntil_of_ahead hnext (by simp [hgt]),
      closeAngle_of_ahead hnext hgt, bump_bumpN]
    simp [Cursor.bumpN]
  obtain ⟨hshows, hpending, hindex⟩ := hs.startTokens hp hh ha
  have hinner := hshows.complete hindex .tagBlock
  rw [hpending, flushTrees_reverse (by simp), ← hread, List.nil_append] at hinner
  have hdone : (c.endTagBlock (Token.textOf ts)).2.pending = [] := by
    rw [hread, pending_complete]
  generalize (c.endTagBlock (Token.textOf ts)).2 = e at htag hend hinner hdone
  have hclose := hinner.complete hm .tagBlock
  rw [hdone, flushTrees_nil, List.append_nil] at hclose
  rw [OpenTag.close, hblock] at htag
  refine ⟨_, htag, hclose, ?_, ?_, pending_complete _ _ _, ?_⟩
  · rw [ahead_complete]
    exact hend.ahead_eq (by simpa using ha)
  · rw [held_complete, hend.held]
  · rw [diagnostics_complete, hend.adds.diagnostics]

end

end Cursor

/-! ## The whole parse -/

namespace Parse

open Cursor TemplateMarkup.Tree Markup

variable {text : List Char}

/-- An element `p` whose content is the text with every `@` doubled. -/
def escaped (text : List Char) : String := "<p>" ++ String.ofList (doubled text) ++ "</p>"

/-- The name of the element. -/
def nameTokens : List Token := [⟨.text, ['p']⟩]

/-- The tree of an element `p` with this content. -/
def paragraph (content : List Tree) : Tree :=
  .node .root [.node .markupBlock [.node .tagBlock
    (.node .literal ((lt :: nameTokens ++ [gt]).map ofToken) :: content ++
      [.node .tagBlock [.node .literal ((lt :: slash :: nameTokens ++ [gt]).map ofToken)]])]]

/-- The content of the element is read as this text, and nothing else happens. -/
structure ReadsAs (text : List Char) (p : Parse Unit) : Prop where
  diagnostics : p.diagnostics = []
  unparsed : p.unparsedText? = none
  no_code : .codeBlock ∉ p.tree.nodeKinds
  no_comment : .inlineComment ∉ p.tree.nodeKinds
  content : ∃ content, p.tree = paragraph content ∧ literalTextOf content = text

/-- An element `p` around a text. -/
def element (text : List Char) : String := "<p>" ++ String.ofList text ++ "</p>"

theorem lex_element (text : List Char) : Token.lex (element text).toList =
    (lt :: nameTokens ++ [gt]) ++ (Token.lex text ++ (lt :: slash :: nameTokens ++ [gt])) := by
  have hsolid : Form.Solid '>' := Form.solid_of_whole .closeAngle rfl (by decide)
  have hsource : (element text).toList =
      '<' :: (['p'] ++ '>' :: (text ++ '<' :: ['/', 'p', '>'])) := by
    simp [element]
  rw [hsource, Token.lex_whole '<' .openAngle rfl, Token.lex_append_solid hsolid,
    Token.lex_whole '>' .closeAngle rfl, Token.lex_append_solid solid_openAngle]
  rfl

/-- The element while it is open. -/
def openElement (m : Marker) : OpenTag := ⟨['p'], 0, some m⟩

/-- The cursor is behind the start tag of an element around the text. -/
structure Opened (text : List Char) (m : Marker) (c : Cursor Unit) : Prop where
  shows : Shows c [[.node .literal ((lt :: nameTokens ++ [gt]).map ofToken)], [], []]
  index : m.index = (framesEvents [[], []]).length
  sound : Sound False [] [m, ⟨1⟩, ⟨0⟩] c
  ahead : c.ahead = Token.lex text ++ (lt :: slash :: nameTokens ++ [gt])
  held : c.held = []
  pending : c.pending = []
  context : c.context = { options := {} }
  diagnostics : c.diagnostics = #[]

theorem nameTokens_text : ∀ t ∈ nameTokens, t.kind = .text := by simp [nameTokens]

/-- There is nothing special about the element. -/
theorem name_plain : ({} : Options).isVoidElement (Token.textOf nameTokens) = false ∧
    ({} : Options).isScriptTag (Token.textOf nameTokens) = false ∧
      ({} : Options).isTextTag (Token.textOf nameTokens) = false := by decide

/-- A unit that begins with a `<` is what the walk reads from there. -/
theorem unitEnd_tag {source : String} (h : (unitStart source).current = .openAngle) : unitEnd source =
    endTags (resume .implicit (unitStart source).unclaimed ((unitStart source).tag .implicit [])) := by
  have hne : (unitStart source).ahead ≠ [] := ahead_ne_nil_of_nth h (by decide)
  have hfirst : ((unitStart source).skipTo .implicit .openAngle).flush .literal = unitStart source := by
    obtain ⟨bound, hbound⟩ := Nat.exists_eq_add_of_lt (budget_pos .implicit (unitStart source))
    rw [skipTo, skipUntil, hbound, Nat.zero_add, scanFrom, if_pos (by simp [at?, h])]
    rfl
  rw [unitEnd_of_openAngle h, tagBlock, tagsFrom]
  dsimp only
  rw [hfirst, if_neg (by simp [atEnd, hne]), resume]

/-- The element is opened, and the walk goes on behind its start tag. -/
theorem unitEnd_element (text : List Char) : ∃ m c bound, Opened text m c ∧
    c.unclaimed < bound + 1 ∧ unitEnd (element text) =
      endTags (tagsFrom .implicit (bound + 1) ⟨c, [openElement m], true⟩) := by
  have hahead := (ahead_unitStart (element text)).trans (lex_element text)
  have hne : (unitStart (element text)).ahead ≠ [] := by simp [hahead]
  have hcurrent : (unitStart (element text)).current = .openAngle := current_cons hahead
  obtain ⟨c, m, htag, hshows, hindex, hrest, hheld, hpending, hcontext, hdiagnostics⟩ :=
    tag_start_shows .implicit [] (shows_unitStart (element text)) rfl rfl (List.cons_ne_nil _ _)
      nameTokens_text hahead rfl name_plain.1 name_plain.2.1 (.inr name_plain.2.2)
  have hstart : Sound False [] (OpenTags.markers [] ++ [⟨1⟩, ⟨0⟩]) (unitStart (element text)) :=
    sound_unitStart False (element text)
  have hreach := (Reaches.refl hstart).tag (lawful_implicit False fun _ => True) False.elim trivial hne
  rw [htag] at hreach
  obtain ⟨bound, hbound⟩ := Nat.exists_eq_add_of_lt
    (Nat.lt_of_lt_of_le (Nat.succ_pos _) (Nat.le_trans (Nat.le_add_left _ _) hreach.gained))
  rw [Nat.zero_add] at hbound
  have hlt := hreach.gained
  rw [hbound] at hlt
  refine ⟨m, c, bound, ⟨hshows, hindex, hreach.sound, hrest, hheld, hpending, hcontext,
    hdiagnostics⟩, hlt, ?_⟩
  rw [unitEnd_tag hcurrent, htag, hbound]
  rfl

/-- A unit that takes the whole source is all there is in the tree. -/
theorem tree_of_shows {source : String} {block : List Tree}
    (hs : Shows (unitEnd source) [block, []]) (hp : (unitEnd source).pending = [])
    (hh : (unitEnd source).held = []) (ha : (unitEnd source).ahead = []) {p : Parse Unit}
    (hparse : parse source = .ok p) : p.tree = .node .root [.node .markupBlock block] := by
  have hresult : (Parser.finish {} .implicit () none source).result = .ok p := hparse
  have hunit := hs.complete (m := ⟨1⟩) rfl .markupBlock
  rw [hp, flushTrees_nil, List.append_nil] at hunit
  rw [finish_eq, flush_of_pending (pending_complete _ _ _)] at hresult
  have hheld := (held_complete (unitEnd source) ⟨1⟩ .markupBlock).trans hh
  have hahead := (ahead_complete (unitEnd source) ⟨1⟩ .markupBlock).trans ha
  have hpending := pending_complete (unitEnd source) ⟨1⟩ .markupBlock
  generalize (unitEnd source).complete ⟨1⟩ .markupBlock = c at hunit hheld hahead hpending hresult
  have hnone : c.putBack.ahead = [] := by rw [ahead_putBack, hheld, hahead]; rfl
  have hleft : c.leaveRest = c.putBack := by
    rw [leaveRest]
    dsimp only
    rw [if_pos (by simp [atEnd, hnone])]
  rw [hleft] at hresult
  have hback : Shows c.putBack [[.node .markupBlock block]] :=
    hunit.same rfl rfl (tokens_putBack c)
  have htree := result_tree hback (held_putBack c) hnone hresult
  rw [show c.putBack.pending = [] from hpending] at htree
  simpa using htree

theorem nodeKinds_paragraph {content : List Tree} (h : ∀ t ∈ content, t.IsText) {kind : Kind}
    (hk : kind ∈ (paragraph content).nodeKinds) :
    kind ∈ [.root, .markupBlock, .tagBlock, .literal, .ephemeral] := by
  have hcontent : kind ∈ nodeKindsOf content → kind = .literal ∨ kind = .ephemeral :=
    nodeKindsOf_text h
  simp only [paragraph, nodeKinds, nodeKindsOf, nodeKindsOf_append, nodeKindsOf_map_ofToken] at hk
  simp at hk ⊢
  grind

theorem angle_not_mem_doubled (hangle : '<' ∉ text) : '<' ∉ doubled text := by
  intro h
  obtain ⟨c, hc, hmem⟩ := List.mem_flatMap.mp h
  split at hmem
  · simp at hmem
  · rw [List.mem_singleton] at hmem
    exact hangle (hmem ▸ hc)

theorem kind_ne_of_mem_lex_doubled (hangle : '<' ∉ text) :
    ∀ t ∈ Token.lex (doubled text), t.kind ≠ .openAngle := fun _ ht =>
  Token.kind_ne_of_mem_lex ht rfl (by simpa [Token.starters] using angle_not_mem_doubled hangle)

theorem head_endTag : ∀ t ∈ (lt :: slash :: nameTokens ++ [gt]).head?, t.kind = .openAngle := by
  rintro t ⟨⟩
  rfl

/-- The content of the element has been read as these trees. -/
structure Scanned (content : List Tree) (m : Marker) (c : Cursor Unit) : Prop where
  shows : Shows c
    [.node .literal ((lt :: nameTokens ++ [gt]).map ofToken) :: content, [], []]
  index : m.index = (framesEvents [[], []]).length
  ahead : c.ahead = lt :: slash :: nameTokens ++ [gt]
  held : c.held = []
  pending : c.pending = []
  context : c.context = { options := {} }
  diagnostics : c.diagnostics = #[]

variable {content : List Tree} {m : Marker} {c : Cursor Unit}

theorem Opened.scanned (h : Opened (doubled text) m c) (hangle : '<' ∉ text) (hsep : Separated text) :
    ∃ content, Scanned content m ((c.skipTo .implicit .openAngle).flush .literal) ∧
      (∀ t ∈ content, t.IsText) ∧ literalTextOf content = text := by
  have hread : undoubled? (Token.lex (doubled text)) = some text := by
    rw [undoubled?_lex, if_pos hsep]
  obtain ⟨hwrites, hahead, hheld⟩ := scanFrom_writes .implicit .inside (by rw [h.context])
    h.ahead hread (kind_ne_of_mem_lex_doubled hangle) head_endTag
    (length_lt_budget .implicit h.ahead fun t ht => Token.text_ne_nil_of_mem_lex ht)
  change Writes text c (c.skipTo .implicit .openAngle) at hwrites
  have hflush := hwrites.trans (Writes.flush_literal _)
  rw [List.append_nil] at hflush
  have hheld := (held_flush (c.skipTo .implicit .openAngle) .literal).trans hheld
  have hpending := pending_flush (c.skipTo .implicit .openAngle) .literal
  obtain ⟨content, hshows, htext, hliteral⟩ := hflush.trees h.shows
  have hcontent : literalTextOf content = text := by
    simpa only [waiting, hpending, hheld, h.pending, h.held, List.reverse_nil, List.append_nil,
      Token.textOf_nil, List.nil_append] using hliteral
  exact ⟨content, ⟨hshows, h.index, (ahead_flush _ _).trans hahead, hheld, hpending,
    hflush.context.trans h.context, hflush.diagnostics.trans h.diagnostics⟩, htext, hcontent⟩

theorem Opened.codeBegun (h : Opened (doubled text) m c) (hangle : '<' ∉ text) (hsep : ¬ Separated text) :
    (c.skipTo .implicit .openAngle).CodeBegun := by
  have hread : undoubled? (Token.lex (doubled text)) = none := by rw [undoubled?_lex, if_neg hsep]
  exact scanFrom_begun h.sound LinePlace.noConfusion (by rw [h.context]) h.ahead hread
    (kind_ne_of_mem_lex_doubled hangle) head_endTag (scanMeasure_lt_budget .implicit c)

/-- The end tag closes the element, and nothing is left to read. -/
theorem Scanned.tag (h : Scanned content m c) : ∃ d,
    c.tag .implicit [openElement m] = ⟨d, [], true⟩ ∧
      Shows d [[.node .tagBlock (.node .literal ((lt :: nameTokens ++ [gt]).map ofToken) ::
        content ++ [.node .tagBlock
          [.node .literal ((lt :: slash :: nameTokens ++ [gt]).map ofToken)]])], []] ∧
      d.ahead = [] ∧ d.held = [] ∧ d.pending = [] ∧ d.diagnostics = #[] := by
  have hline : c.ahead = (lt :: slash :: nameTokens ++ [gt]) ++ [] := by
    rw [h.ahead, List.append_nil]
  have hsame : Text.sameIgnoringCase (openElement m).name (Token.textOf nameTokens) = true := by
    rw [show (openElement m).name = ['p'] from rfl]
    decide
  obtain ⟨d, htag, hshows, hahead, hheld, hpending, hdiagnostics⟩ :=
    tag_end_shows .implicit [] h.shows h.pending h.held (List.cons_ne_nil _ _) nameTokens_text hline
      rfl rfl rfl h.index hsame (.inr (by rw [h.context]; exact name_plain.2.2))
  exact ⟨d, htag, hshows, hahead, hheld, hpending, hdiagnostics.trans h.diagnostics⟩

/-- An element whose content is read up to its end tag is the whole unit. -/
theorem parse_element {P : List Tree → Prop} (hscan : ∀ m c, Opened text m c →
    ∃ content, Scanned content m ((c.skipTo .implicit .openAngle).flush .literal) ∧ P content) :
    ∃ p content, parse (element text) = .ok p ∧ p.diagnostics = [] ∧ p.unparsedText? = none ∧
      p.tree = paragraph content ∧ P content := by
  obtain ⟨m, c, bound, hopen, -, hend⟩ := unitEnd_element text
  obtain ⟨content, hscan, hcontent⟩ := hscan m c hopen
  obtain ⟨d, htag, hshows, hahead, hheld, hpending, hdiagnostics⟩ := hscan.tag
  have hwalk : tagsFrom .implicit (bound + 1) ⟨c, [openElement m], true⟩ = ⟨d, [], true⟩ := by
    rw [tagsFrom]
    dsimp only
    rw [if_neg (by simp [atEnd, -ahead_flush, hscan.ahead]), htag]
    rfl
  have hunit : unitEnd (element text) = d := by
    rw [hend, hwalk]
    exact (endTags_eq (by rw [hahead]; decide) (by rw [hahead]; decide)).trans
      (flush_of_pending hpending _)
  rw [← hunit] at hshows hahead hheld hpending hdiagnostics
  obtain ⟨p, hp, hreports⟩ := parse_reports (element text)
  have htree : p.tree = paragraph content := tree_of_shows hshows hpending hheld hahead hp
  refine ⟨p, content, hp, by rw [hreports, hdiagnostics], ?_, htree, hcontent⟩
  rw [Parse.unparsedText?, htree]
  rfl

theorem readsAs_of_separated {p : Parse Unit} (hangle : '<' ∉ text) (hsep : Separated text)
    (hp : parse (escaped text) = .ok p) : ReadsAs text p := by
  obtain ⟨q, content, hq, hdiagnostics, hunparsed, htree, htext, hliteral⟩ :=
    parse_element fun _ _ (hopen : Opened (doubled text) _ _) => hopen.scanned hangle hsep
  obtain rfl : p = q := Except.ok.inj (hp.symm.trans hq)
  have hkinds {kind : Kind} (hk : kind ∈ p.tree.nodeKinds) :
      kind ∈ [.root, .markupBlock, .tagBlock, .literal, .ephemeral] :=
    nodeKinds_paragraph htext (htree ▸ hk)
  exact
    { diagnostics := hdiagnostics
      unparsed := hunparsed
      no_code := fun hk => by simpa using hkinds hk
      no_comment := fun hk => by simpa using hkinds hk
      content := ⟨content, htree, hliteral⟩ }

theorem code_of_not_separated {p : Parse Unit} (hangle : '<' ∉ text) (hsep : ¬ Separated text)
    (hp : parse (escaped text) = .ok p) :
    .codeBlock ∈ p.tree.nodeKinds ∨ .inlineComment ∈ p.tree.nodeKinds := by
  obtain ⟨m, c, bound, hopen, hb, hend⟩ := unitEnd_element (doubled text)
  have hopened : Sound False [] (OpenTags.markers [openElement m] ++ [⟨1⟩, ⟨0⟩]) c := hopen.sound
  obtain ⟨hsound, hbegun⟩ := codeBegun_endTags (w := ⟨c, [openElement m], true⟩) hb hopened
    (hopen.codeBegun hangle hsep)
  rw [← hend] at hsound hbegun
  exact hbegun.imp (mem_nodeKinds_of_begun hsound · hp) (mem_nodeKinds_of_begun hsound · hp)

/-- Doubling escapes the transition where no `@` of the text has an asterisk next to it. Anywhere else
there is a code block or a comment. -/
theorem parse_escaped (hangle : '<' ∉ text) : ∃ p, parse (escaped text) = .ok p ∧
    (Separated text → ReadsAs text p) ∧
    (¬ Separated text → .codeBlock ∈ p.tree.nodeKinds ∨ .inlineComment ∈ p.tree.nodeKinds) := by
  obtain ⟨p, hp, -⟩ := parse_reports (escaped text)
  exact ⟨p, hp, fun hsep => readsAs_of_separated hangle hsep hp,
    fun hsep => code_of_not_separated hangle hsep hp⟩

theorem parse_escaped_address :
    ('<' ∉ ['a', '@', 'b'] ∧ Separated ['a', '@', 'b'] ∧
      ∃ p, parse "<p>a@@b</p>" = .ok p ∧ ReadsAs ['a', '@', 'b'] p) ∧
    ('<' ∉ ['*', '@'] ∧ ¬ Separated ['*', '@'] ∧ ∃ p, parse "<p>*@@</p>" = .ok p ∧
      (.codeBlock ∈ p.tree.nodeKinds ∨ .inlineComment ∈ p.tree.nodeKinds)) := by
  have hsep : Separated ['a', '@', 'b'] := by decide
  have hnot : ¬ Separated ['*', '@'] := by decide
  obtain ⟨p, hp, hreads, -⟩ := parse_escaped (show '<' ∉ ['a', '@', 'b'] by decide)
  obtain ⟨q, hq, -, hcode⟩ := parse_escaped (show '<' ∉ ['*', '@'] by decide)
  exact ⟨⟨by decide, hsep, p, hp, hreads hsep⟩, by decide, hnot, q, hq, hcode hnot⟩

/-- In front of an asterisk the second half of a doubled `@` opens a comment, and behind one the first
half closes one. The other half stands alone, and code begins there. -/
theorem code_of_escaped_asterisk : (∃ p, parse (escaped ['@', '*']) = .ok p ∧ ¬ ReadsAs ['@', '*'] p) ∧
    ∃ p, parse (escaped ['*', '@']) = .ok p ∧ ¬ ReadsAs ['*', '@'] p := by
  have hcode {text : List Char} (h : (parse (escaped text)).toOption.any
      (·.tree.nodeKinds.contains .codeBlock) = true) :
      ∃ p, parse (escaped text) = .ok p ∧ ¬ ReadsAs text p := by
    obtain ⟨p, hp, hcheck⟩ := exists_of_check h
    exact ⟨p, hp, fun hreads => hreads.no_code (by simpa using hcheck)⟩
  exact ⟨hcode (by decide +kernel), hcode (by decide +kernel)⟩

end Parse

end TemplateMarkup
