import TemplateMarkup.Proofs.CodelessScans
import TemplateMarkup.Proofs.Escapes
import TemplateMarkup.Proofs.HandOff
import TemplateMarkup.Proofs.InlineComments
import TemplateMarkup.Proofs.RequestScans

/-! # Comments that stand on lines of their own

The content of an element is read line by line. A line of text waits to be literal
text, and a comment alone on its line takes the blanks around it and the line ending
along, so that none of the line is rendered. Either way the scan stands at the
beginning of the next line. -/

namespace TemplateMarkup

open TemplateMarkup.Tree TokenNode

/-! ## Lines -/

/-- A line of the content of an element, which a line feed ends. -/
inductive ContentLine where
  | plain (text : List Char)
  /-- A comment, with blanks around it. -/
  | comment (before body after : List Char)

namespace ContentLine

def source : ContentLine → List Char
  | plain text => text ++ ['\n']
  | comment before body after =>
    before ++ InlineComment.opener ++ body ++ InlineComment.closer ++ after ++ ['\n']

/-- The part of the line that is rendered. -/
def rendered : ContentLine → List Char
  | plain text => text ++ ['\n']
  | comment .. => []

/-- A line of text has neither tags nor code in it and is one line. A comment may go over several
lines, but nothing besides it stands on them. -/
def Written : ContentLine → Prop
  | plain text => '<' ∉ text ∧ '@' ∉ text ∧ '\n' ∉ text ∧ '\r' ∉ text
  | comment before body after =>
    (∀ c ∈ before, c ∈ Text.inLine) ∧ '@' ∉ body ∧ ∀ c ∈ after, c ∈ Text.inLine

instance : DecidablePred Written
  | plain text => inferInstanceAs (Decidable ('<' ∉ text ∧ '@' ∉ text ∧ '\n' ∉ text ∧ '\r' ∉ text))
  | comment before body after => inferInstanceAs (Decidable
      (before ⊆ Text.inLine ∧ '@' ∉ body ∧ after ⊆ Text.inLine))

def lineFeed : Token := ⟨.newline, ['\n']⟩

def tokens : ContentLine → List Token
  | plain text => Token.lex text ++ [lineFeed]
  | comment before body after =>
    Token.lex before ++ ⟨.commentOpen, InlineComment.opener⟩ :: (Token.lex body ++
      ⟨.commentClose, InlineComment.closer⟩ :: (Token.lex after ++ [lineFeed]))

/-- The tokens of a line do not depend on what follows it. -/
theorem lex_source {l : ContentLine} (h : l.Written) (rest : List Char) :
    Token.lex (l.source ++ rest) = l.tokens ++ Token.lex rest := by
  have hfeed (text : List Char) : Token.lex ('\n' :: text) = lineFeed :: Token.lex text :=
    Token.lex_whole '\n' .newline rfl
  cases l with
  | plain text =>
    obtain ⟨-, -, -, hreturn⟩ := h
    rw [source, tokens, List.append_assoc, List.singleton_append,
      Token.lex_append_lineFeed hreturn, hfeed, List.append_assoc]
    rfl
  | comment before body after =>
    obtain ⟨hbefore, hbody, hafter⟩ := h
    have hopen (text : List Char) : Token.lex (before ++ '@' :: '*' :: text) =
        Token.lex before ++ ⟨.commentOpen, InlineComment.opener⟩ :: Token.lex text := by
      rw [(Token.lex_inLine_append hbefore (by rintro c ⟨⟩; decide)).1, Token.lex_commentOpen]
      rfl
    have hclose (text : List Char) : Token.lex (body ++ '*' :: '@' :: text) =
        Token.lex body ++ ⟨.commentClose, InlineComment.closer⟩ :: Token.lex text := by
      rw [Token.lex_append_asterisk hbody]
      cases text <;> rfl
    have hend : Token.lex (after ++ '\n' :: rest) = Token.lex after ++ lineFeed :: Token.lex rest := by
      rw [(Token.lex_inLine_append hafter (by rintro c ⟨⟩; decide)).1, hfeed]
    have hsource : (comment before body after).source ++ rest =
        before ++ '@' :: '*' :: (body ++ '*' :: '@' :: (after ++ '\n' :: rest)) := by
      simp [source, InlineComment.opener, InlineComment.closer]
    rw [hsource, hopen, hclose, hend, tokens]
    simp

/-- Without an `@` no comment is closed. -/
theorem kind_ne_commentClose {body : List Char} (h : '@' ∉ body) :
    ∀ t ∈ Token.lex body, t.kind ≠ .commentClose := by
  intro t ht hk
  obtain ⟨front, back, hsplit⟩ := List.append_of_mem ht
  have hmunch : Token.MaximalMunch (t :: back) :=
    (Token.maximalMunch_lex body).suffix ⟨front, hsplit.symm⟩
  have htext : t.text = InlineComment.closer :=
    InlineComment.text_of_commentClose (hk ▸ Token.inTable_iff.mp hmunch.1)
  refine h ?_
  rw [← Token.textOf_lex body, hsplit, Token.textOf_append, Token.textOf_cons, htext]
  simp [InlineComment.closer]

theorem lex_sources {lines : List ContentLine} (h : ∀ l ∈ lines, l.Written) :
    Token.lex (lines.flatMap source) = lines.flatMap tokens := by
  induction lines with
  | nil => rfl
  | cons l lines ih =>
    rw [List.flatMap_cons, lex_source (h l (List.mem_cons_self ..)),
      ih fun k hk => h k (List.mem_cons_of_mem l hk), List.flatMap_cons]

end ContentLine

namespace Cursor

variable {σ : Type} {code : EmbeddedCode σ} {c d e : Cursor σ} {text more : List Char}
  {used used' rest : List Token} {ns : List TokenNode} {t : Token} {place : LinePlace} {kind : Kind}
  {bound : Nat}

/-! ## What a stretch renders -/

/-- These tokens are read, and of them and of what was read before and not flushed the text is
rendered. -/
structure Renders (text : List Char) (used : List Token) (c d : Cursor σ) : Prop where
  reads : ∃ ns, Reads ns used c d ∧ literalTextOf (ns.map TokenNode.tree) ++
    Token.textOf d.unflushed = Token.textOf c.unflushed ++ text

namespace Renders

theorem trans (h : Renders text used c d) (h' : Renders more used' d e) :
    Renders (text ++ more) (used ++ used') c e := by
  obtain ⟨ns, hreads, htext⟩ := h.reads
  obtain ⟨ks, hreads', htext'⟩ := h'.reads
  refine ⟨ns ++ ks, hreads.trans hreads', ?_⟩
  rw [List.map_append, literalTextOf_append, List.append_assoc, htext', ← List.append_assoc, htext,
    List.append_assoc]

/-- Where no node is made, what is read waits to be rendered. -/
theorem of_reads (h : Reads [] used c d) : Renders (Token.textOf used) used c d := by
  refine ⟨[], h, ?_⟩
  have hunflushed := h.unflushed
  rw [tokensOf_nil, List.nil_append] at hunflushed
  rw [hunflushed, Token.textOf_append]
  rfl

end Renders

/-! ## One line -/

theorem scanFrom_at {stop : Cursor σ → Bool} (ha : c.ahead = t :: rest) (hstop : stop c = false)
    (bound : Nat) : scanFrom code stop (bound + 1) place c =
      scanFrom code stop bound (c.scanStep code place).1 (c.scanStep code place).2 :=
  scanFrom_step (by simp [ha]) hstop bound

/-- A scan reads a line of tokens without code, and stands behind it then. -/
theorem scanFrom_plain (code : EmbeddedCode σ) (place : LinePlace) {lineFeed : Token} (bound : Nat)
    (hflag : c.context.ephemeralLineEnding = false) (ha : c.ahead = used ++ lineFeed :: rest)
    (hpass : ∀ t ∈ used, t.kind ≠ kind ∧ t.kind ≠ .transition ∧ t.kind ≠ .commentOpen)
    (hfeed : lineFeed.kind = .newline) (hkind : kind ≠ .newline) :
    ∃ d, scanFrom code (·.at? kind) (bound + (used.length + 1)) place c =
        scanFrom code (·.at? kind) bound .start d ∧
      Reads [] (used ++ [lineFeed]) c d ∧ d.held = [] := by
  induction used generalizing c place with
  | nil =>
    have hcur : c.current = .newline := (current_cons ha).trans hfeed
    have hstep : c.scanStep code place = (.start, c.bump) := by
      rw [scanStep, if_neg (by simp [hflag]), hcur]
    refine ⟨c.bump, ?_, .bump ha, held_bump ha⟩
    rw [List.length_nil, scanFrom_at ha (by simp [at?, hcur, hkind.symm]), hstep]
  | cons t used ih =>
    obtain ⟨⟨hk, htrans, hcomment⟩, hpass'⟩ := List.forall_mem_cons.mp hpass
    have hcur : c.current = t.kind := current_cons ha
    have hread := scanStep_reads code place hflag ha htrans hcomment
    obtain ⟨d, hscan, hreads, hheld⟩ := ih (c.scanStep code place).1
      (by rw [hread.context hflag, hflag]) (hread.ahead_eq ha) hpass'
    refine ⟨d, ?_, hread.trans hreads, hheld⟩
    rw [List.length_cons, ← Nat.add_assoc, scanFrom_at ha (by simp [at?, hcur, hk]), hscan]

/-! ### A comment -/

theorem Claims.reads (h : Claims kind used c d) (hp : c.pending = []) (hh : c.held = [])
    (ha : c.ahead = used ++ d.ahead) (ho : d.overrun = c.overrun) : Reads [⟨kind, used⟩] used c d where
  events := by
    rw [h.events, flush_of_pending hp]
    simp [eventsOf]
  flushed := by rw [h.flushed, flush_of_pending hp, tokensOf_singleton]
  unflushed := by simp [unflushed, h.pending, h.held, hp, hh]
  ahead := ha
  overrun := ho
  fault _ := h.fault
  diagnostics := h.diagnostics
  context _ := h.context

/-- In front of a comment, what was accepted is literal text. Blanks that begin the line are not
rendered. -/
theorem beforeComment_reads (hc : HasTexts c) (place : LinePlace) :
    Reads (ofPending .literal c.pending ++
      ofPending (if place = .indent then .ephemeral else .literal) c.held) [] c
      (c.beforeComment place) := by
  have hread := (Reads.flush hc .literal).trans (.acceptRead _)
  have hboth := hread.trans (.flush (hread.hasTexts hc) (if place = .indent then .ephemeral else .literal))
  have hheld : (c.flush .literal).acceptRead.pending = c.held := by
    rw [pending_acceptRead, held_flush, pending_flush, List.append_nil]
  rw [hheld, List.append_nil] at hboth
  exact hboth

/-- The comment call makes a node of the comment. -/
theorem comment_reads {body : List Token} {opener closer : Token} (hc : HasTexts c)
    (hp : c.pending = []) (hh : c.held = []) (hopen : opener.kind = .commentOpen)
    (hbody : ∀ t ∈ body, t.kind ≠ .commentClose) (hclose : closer.kind = .commentClose)
    (ha : c.ahead = (opener :: body ++ [closer]) ++ rest) :
    Reads [⟨.inlineComment, opener :: body ++ [closer]⟩] (opener :: body ++ [closer]) c
      (EmbeddedCode.implicit.comment c) := by
  have hline : c.ahead = opener :: (body ++ closer :: rest) := by simp [ha]
  have hcur : c.current = .commentOpen := (current_cons hline).trans hopen
  obtain ⟨t, ts, hfirst, -, hclaims, hsplit⟩ :=
    inlineComment_claims hh hcur fun t ht => hc t (List.mem_append_right _ ht)
  obtain ⟨rfl, rfl⟩ : opener = t ∧ body ++ closer :: rest = ts := by simpa [hline] using hfirst
  have hthrough : Token.through [.commentClose] (body ++ closer :: rest) = body ++ [closer] := by
    rw [Token.through_pass fun t ht => by simpa using hbody t ht]
    simp [Token.through, Token.startsWith, hclose]
  rw [hthrough] at hclaims hsplit
  obtain ⟨n, hn⟩ := inlineComment_eq hcur
  obtain ⟨node, hmakes⟩ := makes_node hp hh (by simp [hline]) n .inlineComment
  rw [← hn] at hmakes
  show Reads _ _ c (EmbeddedCode.ensureProgress c.position c.inlineComment)
  rw [hmakes.ensureProgress hp hh]
  exact hclaims.reads hp hh hsplit hmakes.overrun_eq

/-- The rest of a line is blank and not rendered. -/
theorem endLine_blank {blanks : List Token} {lineFeed : Token} (hc : HasTexts c)
    (hp : c.pending = []) (hh : c.held = []) (hblanks : Token.AtMostOne .whitespace blanks [lineFeed])
    (hfeed : lineFeed.kind = .newline) (ha : c.ahead = (blanks ++ [lineFeed]) ++ rest) :
    c.endLine.1 = .start ∧
      Reads [⟨.ephemeral, blanks ++ [lineFeed]⟩] (blanks ++ [lineFeed]) c c.endLine.2 := by
  have hcount : (if c.at? .whitespace then 1 else 0) = blanks.length ∧
      c.nth blanks.length = .newline := by
    rcases hblanks with ⟨rfl, -⟩ | ⟨t, rfl, hblank⟩
    · simp [at?, current_cons ha, hfeed, nth, Token.kindAt, ha]
    · simp [at?, current_cons ha, hfeed, hblank, nth, Token.kindAt, ha]
  have hend : c.ephemeralLineEnd = (true, (c.bumpN (blanks ++ [lineFeed]).length).flush .ephemeral) := by
    unfold ephemeralLineEnd
    dsimp only
    rw [hcount.1, if_pos hcount.2, List.length_append]
    rfl
  refine ⟨by rw [endLine, hend]; rfl, ?_⟩
  rw [endLine, hend]
  exact .bumpN_flush hc hp hh ha (by simp) .ephemeral

theorem literalTextOf_of_ne (h : ∀ n ∈ ns, n.kind ≠ .literal) :
    literalTextOf (ns.map TokenNode.tree) = [] := by
  induction ns with
  | nil => rfl
  | cons n ns ih =>
    obtain ⟨hn, hns⟩ := List.forall_mem_cons.mp h
    simp [literalTextOf, literalText, TokenNode.tree, hn, ih hns]

theorem literalTextOf_ofPending (kind : Kind) (pending : List Token) :
    literalTextOf ((ofPending kind pending).map TokenNode.tree) =
      if kind = .literal then Token.textOf pending.reverse else [] := by
  unfold ofPending
  split
  · next h => simp [h, literalTextOf]
  · simp [literalTextOf, literalText, TokenNode.tree, -List.map_reverse]

/-- Where a line has nothing but blanks in front of a comment, the step reads the rest of the line. -/
theorem scanStep_comment {body after : List Token} {opener closer lineFeed : Token} (hc : HasTexts c)
    (hflag : c.context.ephemeralLineEnding = false)
    (hplace : place = .indent ∨ place = .start ∧ c.held = []) (hopen : opener.kind = .commentOpen)
    (hbody : ∀ t ∈ body, t.kind ≠ .commentClose) (hclose : closer.kind = .commentClose)
    (hafter : Token.AtMostOne .whitespace after [lineFeed]) (hfeed : lineFeed.kind = .newline)
    (ha : c.ahead = (opener :: body ++ [closer]) ++ ((after ++ [lineFeed]) ++ rest)) :
    ∃ ns d, c.scanStep .implicit place = (.start, d) ∧
      Reads ns ((opener :: body ++ [closer]) ++ (after ++ [lineFeed])) c d ∧
      literalTextOf (ns.map TokenNode.tree) = Token.textOf c.pending.reverse ∧ d.unflushed = [] := by
  have hbefore := beforeComment_reads hc place
  have hread := hbefore.ahead_eq ha
  have hcomment := comment_reads (hbefore.hasTexts hc) (left_beforeComment place c).2
    (left_beforeComment place c).1 hopen hbody hclose hread
  have hboth := hbefore.trans hcomment
  have hrest := hcomment.ahead_eq hread
  have hdone : (EmbeddedCode.implicit.comment (c.beforeComment place)).unflushed = [] := by
    have hunflushed := hcomment.unflushed
    rw [tokensOf_singleton, show (c.beforeComment place).unflushed = [] by
      simp [unflushed, left_beforeComment place c], List.nil_append] at hunflushed
    simpa using hunflushed
  obtain ⟨hpending, hheld⟩ : (EmbeddedCode.implicit.comment (c.beforeComment place)).pending = [] ∧
      (EmbeddedCode.implicit.comment (c.beforeComment place)).held = [] := by
    simpa [unflushed] using hdone
  obtain ⟨hstart, hline⟩ := endLine_blank (hboth.hasTexts hc) hpending hheld hafter hfeed hrest
  have hall := hboth.trans hline
  have hstep : c.scanStep .implicit place =
      (EmbeddedCode.implicit.comment (c.beforeComment place)).endLine := by
    have hcur : c.current = .commentOpen := (current_cons ha).trans hopen
    have hleads : (place != .inside || c.atLineStart) = true := by
      rcases hplace with rfl | ⟨rfl, -⟩ <;> rfl
    rw [scanStep, if_neg (by simp [hflag]), hcur]
    dsimp only
    rw [if_pos hleads]
    rfl
  refine ⟨_, _, by rw [hstep, ← hstart], by simpa using hall, ?_, ?_⟩
  · simp only [List.map_append, literalTextOf_append, literalTextOf_ofPending]
    rw [literalTextOf_of_ne (by simp)]
    rcases hplace with rfl | ⟨rfl, hh⟩
    · simp
    · simp [hh]
  · have hunflushed := hline.unflushed
    rw [tokensOf_singleton, hdone, List.nil_append] at hunflushed
    simpa using hunflushed

/-- A scan reads a line that is a comment, and stands behind it then. Nothing of it is rendered. -/
theorem scanFrom_comment {before body after : List Token} {opener closer lineFeed : Token}
    (bound : Nat) (hc : HasTexts c) (hh : c.held = []) (hflag : c.context.ephemeralLineEnding = false)
    (hkind : kind ≠ .whitespace ∧ kind ≠ .commentOpen)
    (hbefore : Token.AtMostOne .whitespace before [opener]) (hopen : opener.kind = .commentOpen)
    (hbody : ∀ t ∈ body, t.kind ≠ .commentClose) (hclose : closer.kind = .commentClose)
    (hafter : Token.AtMostOne .whitespace after [lineFeed]) (hfeed : lineFeed.kind = .newline)
    (ha : c.ahead = before ++ ((opener :: body ++ [closer]) ++ ((after ++ [lineFeed]) ++ rest))) :
    ∃ d, scanFrom .implicit (·.at? kind) (bound + (before.length + 1)) .start c =
        scanFrom .implicit (·.at? kind) bound .start d ∧
      Renders [] (before ++ ((opener :: body ++ [closer]) ++ (after ++ [lineFeed]))) c d ∧
      d.held = [] := by
  rcases hbefore with ⟨rfl, -⟩ | ⟨blanks, rfl, hblanks⟩
  · have hcur : c.current = .commentOpen := (current_cons ha).trans hopen
    obtain ⟨ns, d, hstep, hreads, htext, hnone⟩ :=
      scanStep_comment hc hflag (.inr ⟨rfl, hh⟩) hopen hbody hclose hafter hfeed ha
    refine ⟨d, ?_, ⟨ns, hreads, ?_⟩, ?_⟩
    · rw [List.length_nil, scanFrom_at ha (by simp [at?, hcur, hkind.2.symm]), hstep]
    · rw [htext, hnone, unflushed, hh]
      simp
    · simpa using (List.append_eq_nil_iff.mp hnone).2
  · have hcur : c.current = .whitespace := (current_cons ha).trans hblanks
    have hindent : c.scanStep .implicit .start = (.indent, c.acceptRead.advance) := by
      rw [scanStep, if_neg (by simp [hflag]), hcur]
      rfl
    have hread : Reads [] [blanks] c c.acceptRead.advance :=
      (Reads.acceptRead c).trans (.advance ((ahead_acceptRead c).trans ha))
    have hrest := hread.ahead_eq ha
    have hpending : c.acceptRead.advance.pending = c.pending := by
      simp [advance, ha, pending_acceptRead, hh]
    have hopens : c.acceptRead.advance.current = .commentOpen := (current_cons hrest).trans hopen
    obtain ⟨ns, d, hstep, hreads, htext, hnone⟩ := scanStep_comment (hread.hasTexts hc)
      (by rw [hread.context hflag, hflag]) (.inl rfl) hopen hbody hclose hafter hfeed hrest
    refine ⟨d, ?_, ⟨ns, hread.trans hreads, ?_⟩, ?_⟩
    · rw [List.length_singleton, ← Nat.add_assoc, scanFrom_at ha (by simp [at?, hcur, hkind.1.symm]),
        hindent]
      dsimp only
      rw [scanFrom_at hrest (by simp [at?, hopens, hkind.2.symm]), hstep]
    · rw [htext, hnone, unflushed, hh, hpending]
      simp
    · simpa using (List.append_eq_nil_iff.mp hnone).2

/-! ## All lines -/

/-- A scan at the beginning of a line reads it, and stands at the beginning of the next. -/
theorem scanFrom_line {l : ContentLine} (h : l.Written) (bound : Nat) (hc : HasTexts c)
    (hh : c.held = []) (hflag : c.context.ephemeralLineEnding = false)
    (ha : c.ahead = l.tokens ++ rest) :
    ∃ more d, bound ≤ more ∧ scanFrom .implicit (·.at? .openAngle) (bound + l.tokens.length) .start c =
        scanFrom .implicit (·.at? .openAngle) more .start d ∧
      Renders l.rendered l.tokens c d ∧ d.held = [] := by
  cases l with
  | plain text =>
    obtain ⟨hangle, hat, -⟩ := h
    have hpass : ∀ t ∈ Token.lex text,
        t.kind ≠ .openAngle ∧ t.kind ≠ .transition ∧ t.kind ≠ .commentOpen := fun t ht =>
      ⟨Token.kind_ne_of_mem_lex ht rfl (by simpa [Token.starters] using hangle),
        Token.kind_ne_of_mem_lex ht rfl (by simpa [Token.starters] using hat),
        Token.kind_ne_of_mem_lex ht rfl (by simpa [Token.starters] using hat)⟩
    have hline : c.ahead = Token.lex text ++ ContentLine.lineFeed :: rest := by
      simp [ha, ContentLine.tokens]
    obtain ⟨d, hscan, hreads, hheld⟩ :=
      scanFrom_plain .implicit .start bound hflag hline hpass rfl (by decide)
    have hrenders := Renders.of_reads hreads
    rw [Token.textOf_append, Token.textOf_lex] at hrenders
    refine ⟨bound, d, Nat.le_refl _, ?_, hrenders, hheld⟩
    rw [ContentLine.tokens, List.length_append]
    exact hscan
  | comment before body after =>
    obtain ⟨hbefore, hbody, hafter⟩ := h
    have hopener : Token.lex InlineComment.opener = [⟨.commentOpen, InlineComment.opener⟩] := rfl
    have hblanks := (Token.lex_inLine_append hbefore
      (show ∀ c ∈ InlineComment.opener.head?, c ∉ Text.inLine by rintro c ⟨⟩; decide)).2
    have hend := (Token.lex_inLine_append hafter
      (show ∀ c ∈ ['\n'].head?, c ∉ Text.inLine by rintro c ⟨⟩; decide)).2
    rw [hopener] at hblanks
    rw [show Token.lex ['\n'] = [ContentLine.lineFeed] from rfl] at hend
    have htokens : (ContentLine.comment before body after).tokens =
        Token.lex before ++ ((⟨.commentOpen, InlineComment.opener⟩ :: Token.lex body ++
          [⟨.commentClose, InlineComment.closer⟩]) ++
          (Token.lex after ++ [ContentLine.lineFeed])) := by
      simp [ContentLine.tokens]
    have hline := ha
    rw [htokens, List.append_assoc, List.append_assoc] at hline
    obtain ⟨d, hscan, hrenders, hheld⟩ := scanFrom_comment
      (bound + ((Token.lex body).length + (Token.lex after).length + 2)) hc hh hflag
      (show Kind.openAngle ≠ .whitespace ∧ Kind.openAngle ≠ .commentOpen by decide) hblanks rfl
      (ContentLine.kind_ne_commentClose hbody) rfl hend rfl hline
    have hlength : bound + (ContentLine.comment before body after).tokens.length =
        bound + ((Token.lex body).length + (Token.lex after).length + 2) +
          ((Token.lex before).length + 1) := by
      rw [htokens]
      simp only [List.length_append, List.length_cons, List.length_nil]
      omega
    rw [← htokens] at hrenders
    rw [← hlength] at hscan
    exact ⟨_, d, Nat.le_add_right bound _, hscan, hrenders, hheld⟩

/-- A scan from the beginning of a line reads all lines up to the end tag. -/
theorem scanFrom_lines {lines : List ContentLine} (h : ∀ l ∈ lines, l.Written) {bound : Nat}
    (hc : HasTexts c) (hh : c.held = []) (hflag : c.context.ephemeralLineEnding = false)
    (ha : c.ahead = lines.flatMap ContentLine.tokens ++ rest)
    (hstop : ∀ t ∈ rest.head?, t.kind = .openAngle)
    (hb : (lines.flatMap ContentLine.tokens).length < bound) :
    Renders (lines.flatMap ContentLine.rendered) (lines.flatMap ContentLine.tokens) c
        (scanFrom .implicit (·.at? .openAngle) bound .start c) ∧
      (scanFrom .implicit (·.at? .openAngle) bound .start c).held = [] := by
  induction lines generalizing c bound with
  | nil =>
    obtain ⟨bound, rfl⟩ := Nat.exists_eq_add_of_lt hb
    have hend : (c.atEnd || c.at? .openAngle) = true := by
      cases rest with
      | nil => simp [atEnd, ha]
      | cons t rest => simp [at?, current_cons ha, hstop t rfl]
    rw [scanFrom, if_pos hend]
    exact ⟨.of_reads (.acceptRead c), held_acceptRead c⟩
  | cons l lines ih =>
    obtain ⟨hl, hlines⟩ := List.forall_mem_cons.mp h
    rw [List.flatMap_cons, List.length_append] at hb
    rw [List.flatMap_cons, List.append_assoc] at ha
    obtain ⟨bound, rfl⟩ := Nat.exists_eq_add_of_le' (Nat.le_trans (Nat.le_add_right _ _) (Nat.le_of_lt hb))
    obtain ⟨more, d, hmore, hscan, hrenders, hheld⟩ := scanFrom_line hl bound hc hh hflag ha
    obtain ⟨ns, hreads, -⟩ := hrenders.reads
    obtain ⟨hrest, hdone⟩ := ih hlines (hreads.hasTexts hc) hheld
      (by rw [hreads.context hflag, hflag]) (hreads.ahead_eq ha) (show _ < more by omega)
    rw [hscan]
    exact ⟨hrenders.trans hrest, hdone⟩

end Cursor

/-! ## The element -/

theorem TokenNode.leafTextsOf_map_tree {ns : List TokenNode} (h : ∀ t ∈ tokensOf ns, t.text ≠ []) :
    leafTextsOf (ns.map TokenNode.tree) = (tokensOf ns).map Token.text := by
  induction ns with
  | nil => rfl
  | cons n ns ih =>
    have hn : ∀ t ∈ n.tokens, t.text ≠ [] := fun t ht => h t (by simp [tokensOf, ht])
    have hns : ∀ t ∈ tokensOf ns, t.text ≠ [] := fun t ht => h t (List.mem_append_right _ ht)
    rw [List.map_cons, leafTextsOf, ih hns, TokenNode.tree, leafTexts, leafTextsOf_map_ofToken hn]
    simp [tokensOf]

namespace Cursor

variable {σ : Type} {c d : Cursor σ} {ns : List TokenNode} {used : List Token} {f : List Tree}
  {fs : List (List Tree)}

theorem Shows.hasTexts (h : Shows c fs) : HasTexts c := fun t ht =>
  (h.sane t (by rw [tokens_eq_coming]; exact List.mem_append_right _ ht)).text_ne_nil

/-- The nodes that are made are added to the innermost open one. -/
theorem Reads.shows (h : Reads ns used c d) (hs : Shows c (f :: fs)) :
    Shows d ((f ++ ns.map TokenNode.tree) :: fs) := by
  have hcoming : c.coming = tokensOf ns ++ d.coming := by
    rw [coming, coming, h.ahead, ← List.append_assoc, ← h.unflushed, List.append_assoc]
  have htokens : d.tokens = c.tokens := by
    rw [tokens_eq_coming, tokens_eq_coming, hcoming, h.flushed, List.reverse_append,
      List.reverse_reverse, List.append_assoc]
  have htexts : ∀ t ∈ tokensOf ns, t.text ≠ [] := fun t ht =>
    hs.hasTexts t (by rw [← coming, hcoming]; exact List.mem_append_left _ ht)
  refine ⟨?_, ?_, by rw [htokens]; exact hs.sane⟩
  · rw [h.events, hs.events]
    simp [framesEvents]
  · rw [h.flushed, List.reverse_append, List.reverse_reverse, List.map_append, hs.texts]
    simp [framesTexts, leafTextsOf_append, leafTextsOf_map_tree htexts]

end Cursor

namespace Parse

open Cursor

variable {lines : List ContentLine} {m : Marker} {c : Cursor Unit}

/-- Lines of text and of comments that follow the line of the start tag are the content of the element.
Only those of text are rendered. -/
theorem Opened.lines_scanned (h : Opened ('\n' :: lines.flatMap ContentLine.source) m c)
    (hlines : ∀ l ∈ lines, l.Written) :
    ∃ content, Scanned content m ((c.skipTo .implicit .openAngle).flush .literal) ∧
      literalTextOf content = '\n' :: lines.flatMap ContentLine.rendered := by
  have hc := h.shows.hasTexts
  have hflag : c.context.ephemeralLineEnding = false := by rw [h.context]
  have htokens : Token.lex ('\n' :: lines.flatMap ContentLine.source) =
      ContentLine.lineFeed :: lines.flatMap ContentLine.tokens := by
    rw [Token.lex_whole '\n' .newline rfl, ContentLine.lex_sources hlines]
    rfl
  have hahead := h.ahead
  rw [htokens] at hahead
  obtain ⟨bound, hbound⟩ := Nat.exists_eq_add_of_lt (length_lt_budget .implicit hahead fun t ht =>
    Token.text_ne_nil_of_mem_lex (htokens ▸ ht))
  -- the rest of the line of the start tag is a line without text
  obtain ⟨d, hscan, hfirst, hheld⟩ := scanFrom_plain .implicit .inside
    ((lines.flatMap ContentLine.tokens).length + bound + 1) hflag
    (show c.ahead = [] ++ ContentLine.lineFeed :: _ from hahead) (by simp) rfl
    (show Kind.openAngle ≠ .newline by decide)
  obtain ⟨hrest, hdone⟩ := scanFrom_lines hlines (hfirst.hasTexts hc) hheld
    (by rw [hfirst.context hflag, hflag]) (hfirst.ahead_eq hahead) head_endTag
    (show _ < (lines.flatMap ContentLine.tokens).length + bound + 1 by omega)
  have hskip : c.skipTo .implicit .openAngle = scanFrom .implicit (·.at? .openAngle)
      ((lines.flatMap ContentLine.tokens).length + bound + 1) .start d := by
    rw [← hscan, skipTo, skipUntil, hbound, List.length_cons]
    congr 1
    simp only [List.length_nil]
    omega
  rw [← hskip] at hrest hdone
  obtain ⟨ns, hreads, htext⟩ := ((Renders.of_reads hfirst).trans hrest).reads
  have hall := hreads.trans (.flush (hreads.hasTexts hc) .literal)
  have hnone : c.unflushed = [] := by simp [unflushed, h.pending, h.held]
  refine ⟨_, ⟨List.singleton_append .. ▸ hall.shows h.shows, h.index, ?_,
    (held_flush _ _).trans hdone, pending_flush _ _,
    (hall.context hflag).trans h.context, hall.diagnostics.trans h.diagnostics⟩, ?_⟩
  · exact hall.ahead_eq (by simpa using hahead)
  · rw [List.map_append, literalTextOf_append, literalTextOf_ofPending, if_pos rfl]
    rw [unflushed, hdone, hnone] at htext
    simpa [ContentLine.lineFeed] using htext

/-- Comments on lines of their own leave no trace in what is rendered. -/
theorem parse_commentLines (hlines : ∀ l ∈ lines, l.Written) :
    ∃ p content, parse (element ('\n' :: lines.flatMap ContentLine.source)) = .ok p ∧
      p.diagnostics = [] ∧ p.unparsedText? = none ∧ p.tree = paragraph content ∧
      literalTextOf content = '\n' :: lines.flatMap ContentLine.rendered :=
  parse_element fun _ _ hopen => hopen.lines_scanned hlines

/-- The second comment goes over two lines. The last line is blank, and not a comment. -/
theorem parse_commentLines_indented :
    let lines : List ContentLine := [.comment [' ', '\t'] [' ', 'a', ' '] [' '], .plain ['b', '*'],
      .comment [] ['*', '\n', '<', '/', 'p', '>', '*'] [], .comment [' '] [] ['\t'], .plain [' ']]
    (∀ l ∈ lines, l.Written) ∧
      element ('\n' :: lines.flatMap ContentLine.source) =
        "<p>\n \t@* a *@ \nb*\n@**\n</p>**@\n @**@\t\n \n</p>" ∧
      ∃ p content, parse (element ('\n' :: lines.flatMap ContentLine.source)) = .ok p ∧
        p.diagnostics = [] ∧ p.unparsedText? = none ∧ p.tree = paragraph content ∧
        literalTextOf content = "\nb*\n \n".toList := by
  intro lines
  have hlines : ∀ l ∈ lines, l.Written := by decide
  exact ⟨hlines, by decide, parse_commentLines hlines⟩

end Parse

end TemplateMarkup
