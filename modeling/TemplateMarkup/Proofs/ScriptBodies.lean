import TemplateMarkup.Proofs.CodelessScans
import TemplateMarkup.Proofs.Escapes
import TemplateMarkup.Proofs.TokenTable

/-! # The bodies of scripts

A script without `@` ends at the first end tag of its own name. All the text in
front of it is one node, whatever looks like markup there. -/

namespace TemplateMarkup

open TemplateMarkup.Tree

namespace Cursor

variable {σ : Type} {options : Options} {c d : Cursor σ} {f g : List Tree}
  {fs frames : List (List Tree)} {waiting used rest : List Token} {t : Token} {m : Marker}
  {kind : Kind}

/-! ## A parse without incidents -/

/-- So far nothing is reported and nothing has failed. These nodes are open, these tokens wait to be
flushed, and these come next. -/
structure OnCourse (options : Options) (frames : List (List Tree)) (waiting ahead : List Token)
    (c : Cursor σ) : Prop where
  shows : Shows c frames
  pending : c.pending = waiting.reverse
  held : c.held = []
  ahead : c.ahead = ahead
  overrun : c.overrun = 0
  fault : c.fault = none
  diagnostics : c.diagnostics = #[]
  context : c.context = { options }

namespace OnCourse

theorem blockStart (options : Options) (host : σ) (source : String) :
    OnCourse options [[], []] [] (Token.lex source.toList)
      (Parse.blockStart options host source) where
  shows := Parse.shows_blockStart options host source
  pending := rfl
  held := rfl
  ahead := rfl
  overrun := rfl
  fault := rfl
  diagnostics := rfl
  context := rfl

theorem reads (h : OnCourse options (f :: fs) waiting (used ++ rest) c) (hr : Reads [] used c d)
    (hh : d.held = []) : OnCourse options (f :: fs) (waiting ++ used) rest d := by
  have hahead := hr.ahead_eq h.ahead
  have hpending : d.pending.reverse = waiting ++ used := by
    have hunflushed := hr.unflushed
    simpa [unflushed, h.pending, h.held, hh] using hunflushed
  have hevents : d.events = c.events := by
    have htoList := hr.events
    simpa [eventsOf, ← Array.toList_inj] using htoList
  refine ⟨h.shows.same hevents hr.flushed ?_, by simp [← hpending], hh, hahead, ?_, ?_, ?_, ?_⟩
  · simp [tokens, hr.flushed, hpending, hh, hahead, h.pending, h.held, h.ahead]
  · rw [hr.overrun, h.overrun]
  · rw [hr.fault h.overrun, h.fault]
  · rw [hr.diagnostics, h.diagnostics]
  · rw [hr.context (by rw [h.context]), h.context]

theorem bump (h : OnCourse options (f :: fs) waiting (t :: rest) c) :
    OnCourse options (f :: fs) (waiting ++ [t]) rest c.bump :=
  reads h (.bump h.ahead) (held_bump h.ahead)

theorem bumpN (h : OnCourse options (f :: fs) waiting (used ++ rest) c) :
    OnCourse options (f :: fs) (waiting ++ used) rest (c.bumpN used.length) :=
  h.reads (.bumpN h.ahead) (held_bumpN h.held _)

theorem flush (h : OnCourse options (f :: fs) waiting rest c) :
    OnCourse options ((f ++ flushTrees .literal waiting.reverse) :: fs) [] rest
      (c.flush .literal) where
  shows := h.pending ▸ h.shows.flush .literal
  pending := pending_flush c _
  held := (held_flush c _).trans h.held
  ahead := (ahead_flush c _).trans h.ahead
  overrun := (overrun_flush c _).trans h.overrun
  fault := (fault_flush c _).trans h.fault
  diagnostics := (diagnostics_flush c _).trans h.diagnostics
  context := (context_flush c _).trans h.context

theorem start (h : OnCourse options (f :: fs) waiting rest c) :
    OnCourse options ([] :: (f ++ flushTrees .literal waiting.reverse) :: fs) [] rest c.start.2 ∧
      c.start.1.index =
        (framesEvents ((f ++ flushTrees .literal waiting.reverse) :: fs)).length := by
  have hstart := h.shows.start
  rw [h.pending] at hstart
  have hf := h.flush
  exact ⟨⟨hstart.1, hf.pending, hf.held, hf.ahead, hf.overrun, hf.fault, hf.diagnostics,
    hf.context⟩, hstart.2⟩

theorem complete (h : OnCourse options (f :: g :: fs) waiting rest c)
    (hm : m.index = (framesEvents (g :: fs)).length) (kind : Kind) :
    OnCourse options ((g ++ [.node kind (f ++ flushTrees .literal waiting.reverse)]) :: fs) [] rest
      (c.complete m kind) := by
  have hf := h.flush
  have hshows := h.shows.complete hm kind
  rw [h.pending] at hshows
  refine ⟨hshows, ?_, ?_, ?_, ?_, ?_, ?_, ?_⟩ <;> rw [complete_eq (h.shows.placeholder hm)]
  · exact hf.pending
  · exact hf.held
  · exact hf.ahead
  · exact hf.overrun
  · exact hf.fault
  · exact hf.diagnostics
  · exact hf.context

theorem skipTo (h : OnCourse options (f :: fs) waiting (used ++ rest) c) (code : EmbeddedCode σ)
    (hpass : ∀ t ∈ used, t.kind ≠ kind ∧ t.kind ≠ .transition ∧ t.kind ≠ .commentOpen)
    (hstop : ∀ t ∈ rest.head?, t.kind = kind)
    (hkind : kind ≠ .whitespace ∧ kind ≠ .newline) :
    OnCourse options (f :: fs) (waiting ++ used) rest (c.skipTo code kind) := by
  have htexts : HasTexts c := fun t ht => (h.shows.sane t (by
    simpa [unflushed, h.held, tokens] using Or.inr (by simpa [unflushed, h.held] using ht))).text_ne_nil
  obtain ⟨ns, hreads, hheld, hnone⟩ := skipTo_reads code htexts h.ahead hpass hstop hkind
  rw [hnone (by rw [h.context])] at hreads
  exact h.reads hreads hheld

theorem length_le_unclaimed (h : OnCourse options frames waiting rest c) :
    rest.length ≤ c.unclaimed := by
  have hline : c.ahead = rest ++ [] := by rw [h.ahead, List.append_nil]
  refine Cursor.length_le_unclaimed hline fun t ht => (h.shows.sane t ?_).text_ne_nil
  rw [tokens, h.ahead]
  exact List.mem_append_right _ ht

/-- A scan at its stop. -/
theorem skipTo_at (h : OnCourse options (f :: fs) waiting (t :: rest) c) (code : EmbeddedCode σ)
    (kind : Kind) (hk : t.kind = kind) (hkind : kind ≠ .whitespace ∧ kind ≠ .newline) :
    OnCourse options (f :: fs) waiting (t :: rest) (c.skipTo code kind) := by
  have hline : OnCourse options (f :: fs) waiting ([] ++ t :: rest) c := h
  have hskip := hline.skipTo code nofun (by rintro u ⟨⟩; exact hk) hkind
  rwa [List.append_nil] at hskip

theorem flushRaw (h : OnCourse options (f :: fs) waiting rest c) :
    OnCourse options ((f ++ waiting.map ofToken) :: fs) [] rest c.flushRaw where
  shows := by
    have hshows := (Emits.flushRaw c).shows h.shows
    rwa [h.pending, List.reverse_reverse] at hshows
  pending := rfl
  held := h.held
  ahead := h.ahead
  overrun := h.overrun
  fault := h.fault
  diagnostics := h.diagnostics
  context := h.context

/-- What comes next is left to the host. -/
theorem leaveRest (h : OnCourse options [f] [] rest c) :
    OnCourse options [f ++ flushTrees .unparsed rest.reverse] [] [] c.leaveRest := by
  have hback : c.putBack = c := by
    obtain ⟨-, -, hheld, -, hoverrun, -⟩ := h
    cases c
    cases hheld
    cases hoverrun
    simp [putBack, rewind]
  rw [Cursor.leaveRest, hback]
  dsimp only
  by_cases hnone : rest = []
  · subst hnone
    rw [if_pos (by simp [atEnd, h.ahead])]
    simpa using h
  · obtain ⟨hstart, hindex⟩ := h.start
    have hline : OnCourse options _ [] (rest ++ []) c.start.2 := (List.append_nil rest).symm ▸ hstart
    have hnode := hline.bumpN.flushRaw.complete hindex .unparsed
    rw [if_neg (by simpa [atEnd, h.ahead] using hnone), ahead_start, h.ahead, flushTrees,
      if_neg (by simpa using hnone), List.reverse_reverse]
    simpa using hnode

end OnCourse

/-! ## The names of tags -/

theorem bangEscapeAt_of_ne {n : Nat} (h : c.nth n ≠ .bang) : c.bangEscapeAt n = false := by
  simp [bangEscapeAt, h]

/-- A name of text tokens is what the text tokens that come next spell, or nothing else is one. -/
theorem tagNameAt_same {name : List Char} {n : Nat} (hname : ∀ t ∈ Token.lex name, t.kind = .text)
    (h : Text.sameIgnoringCase (c.tagNameAt n) name = true) :
    Text.sameIgnoringCase (c.textRunAt n) name = true := by
  rw [tagNameAt] at h
  split at h
  · have hkinds := Token.kinds_lex_of_sameIgnoringCase h
    rw [Token.lex_whole '!' .bang rfl, List.map_cons] at hkinds
    have hbang : Kind.bang ∈ (Token.lex name).map Token.kind := by
      rw [← hkinds]
      exact List.mem_cons_self ..
    obtain ⟨t, ht, hk⟩ := List.mem_map.mp hbang
    rw [hname t ht] at hk
    cases hk
  · exact h

end Cursor

/-! ## What ends a script -/

/-- The name that the text tokens in front of a text spell. -/
def Text.nameAt (text : List Char) : List Char :=
  Token.textOf ((Token.lex text).takeWhile (·.kind == .text))

/-- Behind no `</` of the text comes the name. -/
def Text.Unclosed (name text : List Char) : Prop :=
  ∀ rest, '<' :: '/' :: rest <:+ text → Text.sameIgnoringCase (Text.nameAt rest) name = false

theorem Text.unclosed_iff {name text : List Char} : Unclosed name text ↔
    ∀ n ∈ List.range text.length, ['<', '/'] <+: text.drop n →
      sameIgnoringCase (nameAt (text.drop (n + 2))) name = false := by
  constructor
  · rintro h n - ⟨rest, hrest⟩
    have htail : '<' :: '/' :: rest <:+ text := by
      have hsuffix := List.drop_suffix n text
      rwa [← hrest] at hsuffix
    rw [← List.drop_drop, ← hrest]
    exact h rest htail
  · rintro h rest ⟨front, rfl⟩
    have hlen : front.length ∈ List.range (front ++ '<' :: '/' :: rest).length := by simp
    have hname := h _ hlen ⟨rest, by simp⟩
    rwa [← List.drop_drop, List.drop_left] at hname

instance (name text : List Char) : Decidable (Text.Unclosed name text) :=
  decidable_of_iff _ Text.unclosed_iff.symm

/-- Behind no `</` of the tokens come text tokens that spell the name. -/
def Token.Unclosed (name : List Char) (ts : List Token) : Prop :=
  ∀ t u rest, t :: u :: rest <:+ ts → t.kind = .openAngle → u.kind = .slash →
    Text.sameIgnoringCase (textOf (rest.takeWhile (·.kind == .text))) name = false

theorem Token.unclosed_lex {name text : List Char} (h : Text.Unclosed name text) :
    Unclosed name (lex text) := by
  intro t u rest hsuffix ht hu
  have hsource : lex (textOf rest) = rest :=
    lex_textOf_suffix ((List.suffix_append [t, u] rest).trans hsuffix)
  have hangle : t.text = ['<'] :=
    text_of_openAngle_of_mem_lex (hsuffix.subset (List.mem_cons_self ..)) ht
  have hslash : u.text = ['/'] :=
    (spelled_of_mem_lex (hsuffix.subset (List.mem_cons_of_mem _ (List.mem_cons_self ..)))).slash hu
  obtain ⟨front, hfront⟩ := hsuffix
  have htext := congrArg textOf hfront
  rw [textOf_append, textOf_lex, textOf_cons, textOf_cons, hangle, hslash] at htext
  have hname := h (textOf rest) ⟨textOf front, htext⟩
  rwa [Text.nameAt, hsource] at hname

namespace Cursor

open Markup

variable {σ : Type} {code : EmbeddedCode σ} {options : Options} {c d : Cursor σ} {f g : List Tree}
  {fs : List (List Tree)} {waiting rest us : List Token} {m : Marker} {name : List Char} {bound : Nat}

/-- The tokens of a start tag without attributes. -/
def openTokens (name : List Char) : List Token := lt :: (Token.lex name ++ [gt])

theorem head_gt : ∀ t ∈ [gt].head?, t.kind ≠ .text := by
  rintro t ⟨⟩
  decide

/-- The first end tag of the script's name, with everything in front of it read. -/
theorem OnCourse.scriptEnd (hname : ∀ t ∈ Token.lex name, t.kind = .text)
    (h : OnCourse options (f :: fs) waiting (endTokens name) (c.skipTo code .openAngle)) :
    OnCourse options ((f ++ flushTrees .literal waiting.reverse ++
      [.node .tagBlock [.node .literal ((endTokens name).map ofToken)]]) :: fs) [] []
      (scriptBodyFrom code name (bound + 1) c) := by
  rw [scriptBodyFrom]
  generalize c.skipTo code .openAngle = d at h ⊢
  have hdrop : d.ahead.drop 2 = Token.lex name ++ [gt] := by
    rw [h.ahead]
    rfl
  have hsame : d.nth 1 = .slash ∧ Text.sameIgnoringCase (d.tagNameAt 2) name = true := by
    have hbang : d.nth 2 ≠ .bang := by
      rw [nth_eq hdrop]
      cases hsource : Token.lex name with
      | nil => decide
      | cons t ts =>
        rw [show Token.kindAt (t :: ts ++ [gt]) 0 = t.kind from rfl,
          hname t (hsource ▸ List.mem_cons_self ..)]
        decide
    refine ⟨by rw [nth, h.ahead]; rfl, ?_⟩
    rw [tagNameAt, bangEscapeAt_of_ne hbang, if_neg Bool.false_ne_true,
      textRunAt_eq hdrop hname head_gt, Token.textOf_lex, Text.sameIgnoringCase_iff]
  dsimp only
  rw [if_neg (by simp [atEnd, h.ahead, endTokens]), if_pos hsame]
  obtain ⟨hstart, hindex⟩ := h.start
  have hslash : OnCourse options _ [lt, slash] (Token.lex name ++ [gt]) (d.start.2.bumpN 2) :=
    hstart.bump.bump
  have heat : (d.start.2.bumpN 2).eatName = (d.start.2.bumpN 2).bumpN (Token.lex name).length :=
    bumpWhile_eq hslash.ahead (by simpa using hname) (by simpa using head_gt)
  have hread := hslash.bumpN.skipTo_at code .closeAngle rfl (by decide)
  rw [← heat] at hread
  rw [closeAngle_of_ahead hread.ahead rfl]
  have hclosed := hread.bump.complete hindex .tagBlock
  have htag : flushTrees .literal ([lt, slash] ++ Token.lex name ++ [gt]).reverse =
      [.node .literal ((endTokens name).map ofToken)] :=
    flushTrees_reverse (List.cons_ne_nil _ _) .literal
  rw [htag] at hclosed
  exact hclosed

/-- A `<` that does not begin an end tag of the script's name is part of the body. -/
theorem scriptBodyFrom_pass (hne : (c.skipTo code .openAngle).ahead ≠ [])
    (hother : (c.skipTo code .openAngle).nth 1 = .slash →
      Text.sameIgnoringCase ((c.skipTo code .openAngle).tagNameAt 2) name = false) (bound : Nat) :
    scriptBodyFrom code name (bound + 1) c =
      scriptBodyFrom code name bound (c.skipTo code .openAngle).bump := by
  have hnot : ¬ ((c.skipTo code .openAngle).nth 1 = .slash ∧
      Text.sameIgnoringCase ((c.skipTo code .openAngle).tagNameAt 2) name = true) := by
    rintro ⟨hslash, hsame⟩
    rw [hother hslash] at hsame
    cases hsame
  rw [scriptBodyFrom]
  dsimp only
  rw [if_neg (by simp [atEnd, hne]), if_neg hnot]

/-- What comes behind a `</` of the body is cut off by the end tag, if by nothing in the body. -/
theorem tagNameAt_other (hname : ∀ t ∈ Token.lex name, t.kind = .text) {t : Token}
    (hbody : Token.Unclosed name (t :: us)) (ht : t.kind = .openAngle)
    (ha : c.ahead = t :: us ++ endTokens name) (hk : c.nth 1 = .slash) :
    Text.sameIgnoringCase (c.tagNameAt 2) name = false := by
  cases us with
  | nil =>
    rw [nth, ha] at hk
    cases hk
  | cons u us =>
    have hu : u.kind = .slash := by
      rw [nth, ha] at hk
      exact hk
    have hrun : c.textRunAt 2 = Token.textOf (us.takeWhile (·.kind == .text)) := by
      rw [textRunAt, ha]
      have hend : (endTokens name).takeWhile (·.kind == .text) = [] := rfl
      show Token.textOf ((us ++ endTokens name).takeWhile _) = _
      rw [List.takeWhile_append, hend, List.append_nil]
      split
      · next hall => rw [(List.takeWhile_prefix _).eq_of_length hall]
      · rfl
    have hother := hbody t u us (List.suffix_refl _) ht hu
    rw [← hrun] at hother
    rw [Bool.eq_false_iff] at hother ⊢
    exact fun hsame => hother (tagNameAt_same hname hsame)

/-- The body of a script is read through its end tag, and nothing is flushed in between. -/
theorem OnCourse.scriptBodyFrom (hname : ∀ t ∈ Token.lex name, t.kind = .text)
    (hus : ∀ t ∈ us, t.kind ≠ .transition ∧ t.kind ≠ .commentOpen) (hbody : Token.Unclosed name us)
    (hb : us.length < bound) (h : OnCourse options (f :: fs) waiting (us ++ endTokens name) c) :
    OnCourse options ((f ++ flushTrees .literal (waiting ++ us).reverse ++
      [.node .tagBlock [.node .literal ((endTokens name).map ofToken)]]) :: fs) [] []
      (scriptBodyFrom code name bound c) := by
  induction bound generalizing us waiting c with
  | zero => exact absurd hb (Nat.not_lt_zero _)
  | succ bound ih =>
    -- the body up to its first angle bracket, if it has one
    obtain ⟨hsplit, hfront, hback⟩ := run_spec (·.kind != .openAngle) us
    generalize us.takeWhile (·.kind != .openAngle) = front at hsplit hfront
    generalize us.dropWhile (·.kind != .openAngle) = back at hsplit hback
    subst hsplit
    have hpass : ∀ t ∈ front, t.kind ≠ .openAngle ∧ t.kind ≠ .transition ∧ t.kind ≠ .commentOpen :=
      fun t ht => ⟨by simpa using hfront t ht, hus t (List.mem_append_left _ ht)⟩
    rw [List.append_assoc] at h
    cases back with
    | nil =>
      rw [List.append_nil]
      exact (h.skipTo code hpass (by rintro t ⟨⟩; rfl) (by decide)).scriptEnd hname
    | cons t back =>
      have ht : t.kind = .openAngle := by simpa using hback t rfl
      have hskip := h.skipTo code hpass (by rintro u ⟨⟩; exact ht) (by decide)
      have hrest : Token.Unclosed name (t :: back) := fun u v rest hsuffix =>
        hbody u v rest (hsuffix.trans (List.suffix_append _ _))
      rw [scriptBodyFrom_pass (by simp [hskip.ahead])
        (tagNameAt_other hname hrest ht hskip.ahead)]
      have hgo := ih (fun u hu => hus u (by simp [hu]))
        (fun u v rest hsuffix => hrest u v rest (hsuffix.trans (List.suffix_cons _ _)))
        (by simp only [List.length_append, List.length_cons] at hb; omega) hskip.bump
      have hread : waiting ++ front ++ [t] ++ back = waiting ++ (front ++ t :: back) := by simp
      rwa [hread] at hgo

theorem OnCourse.scriptBody (code : EmbeddedCode σ) (hname : ∀ t ∈ Token.lex name, t.kind = .text)
    (hus : ∀ t ∈ us, t.kind ≠ .transition ∧ t.kind ≠ .commentOpen) (hbody : Token.Unclosed name us)
    (h : OnCourse options (f :: fs) [] (us ++ endTokens name) c) :
    OnCourse options ((f ++ flushTrees .literal us.reverse ++
      [.node .tagBlock [.node .literal ((endTokens name).map ofToken)]]) :: fs) [] []
      (c.scriptBody code name) := by
  have hle := h.length_le_unclaimed
  rw [List.length_append] at hle
  exact h.scriptBodyFrom hname hus hbody (by omega)

/-- Behind the name of a start tag without attributes the body of a script begins. -/
theorem OnCourse.restOfStartTag_script (tags : OpenTags) (m : Marker) (start : Nat)
    (hscript : options.isScriptTag name = true) (hvoid : options.isVoidElement name = false)
    (h : OnCourse options (f :: fs) waiting (gt :: rest) c) :
    c.restOfStartTag code tags m name start =
      ⟨((c.bump.flush .literal).scriptBody code name).complete m .tagBlock, tags, true⟩ := by
  have hnone : c.attributes code = ([], c) := attributes_atTagEnd (.inl (by rw [h.ahead]; rfl))
  have hat : c.at? .openAngle = false := by simp [at?, current_cons h.ahead, gt]
  have heat : c.eat .slash = (false, c) := eat_false h.ahead (by simp [Token.kindAt, gt])
  have hholds : scriptHoldsMarkup options [] = false := rfl
  rw [restOfStartTag, hnone]
  dsimp only
  rw [hat, if_neg Bool.false_ne_true, heat, closeAngle_of_ahead h.ahead rfl]
  simp only [h.bump.flush.context, hscript, hvoid, hholds]
  simp

/-- The start tag of a script is read with everything up to the end tag. -/
theorem OnCourse.tag_script (code : EmbeddedCode σ) (hname : ∀ t ∈ Token.lex name, t.kind = .text)
    (hscript : options.isScriptTag name = true) (hvoid : options.isVoidElement name = false)
    (htext : options.isTextTag name = false)
    (h : OnCourse options (f :: fs) [] (openTokens name ++ rest) c) :
    ∃ d m, OnCourse options ([.node .literal ((openTokens name).map ofToken)] :: f :: fs) [] rest d ∧
      m.index = (framesEvents (f :: fs)).length ∧
      c.tag code [] = ⟨(d.scriptBody code name).complete m .tagBlock, [], true⟩ := by
  have hahead : c.ahead = lt :: (Token.lex name ++ gt :: rest) := by simp [h.ahead, openTokens]
  have hdrop : c.ahead.drop 1 = Token.lex name ++ gt :: rest := by
    rw [hahead]
    rfl
  have hstop : ∀ t ∈ (gt :: rest).head?, t.kind ≠ .text := head_gt
  have hnext : c.nth 1 = .text ∨ c.nth 1 = .closeAngle := by
    rw [nth_eq hdrop]
    cases hsource : Token.lex name with
    | nil => exact .inr rfl
    | cons t ts => exact .inl (hname t (hsource ▸ List.mem_cons_self ..))
  have hbang : c.nth 1 ≠ .bang := by
    rcases hnext with hk | hk <;> rw [hk] <;> decide
  have htag : c.tag code [] = c.startTag code [] := by
    rw [tag]
    rcases hnext with hk | hk <;> simp [hk, atSpecialTag]
  have hread : c.tagNameAt 1 = name := by
    rw [tagNameAt, bangEscapeAt_of_ne hbang, if_neg Bool.false_ne_true,
      textRunAt_eq hdrop hname hstop, Token.textOf_lex]
  obtain ⟨hstart, hindex⟩ := h.start
  rw [List.reverse_nil, flushTrees_nil, List.append_nil] at hstart hindex
  have hopen : OnCourse options ([] :: f :: fs) [lt] (Token.lex name ++ gt :: rest) c.start.2.bump :=
    bump (by simpa [openTokens] using hstart)
  have heat : c.start.2.bump.bangEscape.eatName = c.start.2.bump.bumpN (Token.lex name).length := by
    have hfirst : c.start.2.bump.nth 0 ≠ .bang := by
      rw [nth_eq (n := 0) hopen.ahead, ← nth_eq hdrop]
      exact hbang
    rw [bangEscape, bangEscapeAt_of_ne hfirst, if_neg Bool.false_ne_true]
    exact bumpWhile_eq hopen.ahead (by simpa using hname) (by simpa using hstop)
  have hnamed := hopen.bumpN
  rw [← heat] at hnamed
  have hbody := hnamed.bump.flush
  have htokens : flushTrees .literal ([lt] ++ Token.lex name ++ [gt]).reverse =
      [.node .literal ((openTokens name).map ofToken)] :=
    flushTrees_reverse (List.cons_ne_nil _ _) .literal
  rw [htokens, List.nil_append] at hbody
  refine ⟨_, _, hbody, hindex, ?_⟩
  have hplain : ¬ (([] : OpenTags).isEmpty = true ∧ c.context.options.isTextTag name = true) := by
    rw [h.context, htext]
    exact fun hno => absurd hno.2 Bool.false_ne_true
  rw [htag, startTag]
  dsimp only
  rw [hread, if_neg hplain, hnamed.restOfStartTag_script [] _ _ hscript hvoid]

end Cursor

/-! ## The whole parse -/

namespace Parse

open Cursor Markup

variable {σ : Type}

/-- A root whose trees are known is the result. -/
theorem result_ok {options : Options} {c : Cursor σ} {f : List Tree}
    (h : OnCourse options [f] [] [] c) :
    (c.complete ⟨0⟩ .root).result = .ok ⟨.node .root f, [], c.host⟩ := by
  have hroot := ofEvents?_root h.shows h.held h.ahead
  rw [h.pending, List.reverse_nil, flushTrees_nil, List.append_nil] at hroot
  have hfault : (c.complete ⟨0⟩ .root).fault = none := by
    rw [complete_eq (h.shows.placeholder rfl)]
    exact (fault_flush c _).trans h.fault
  rw [Cursor.result, hroot, hfault, diagnostics_complete, h.diagnostics, host_complete]

/-- The tokens that a unit leaves become a node behind it. -/
theorem parseBlock_leaving {options : Options} {code : EmbeddedCode σ} {host : σ} {source : String}
    {block : List Tree} {left : List Token}
    (h : OnCourse options [block, []] [] left (blockEnd options code host source)) :
    ∃ p, parseBlock options code host source = .ok p ∧ p.diagnostics = [] ∧
      p.tree = .node .root (.node .markupBlock block :: flushTrees .unparsed left.reverse) := by
  have hunit := ((h.complete (m := ⟨1⟩) rfl .markupBlock).flush).leaveRest
  simp only [List.reverse_nil, flushTrees_nil, List.append_nil, List.nil_append] at hunit
  have hresult : parseBlock options code host source =
      (Parser.finish options code host none source).result := rfl
  rw [hresult, finish_block]
  exact ⟨_, result_ok hunit, rfl, rfl⟩

/-- A unit that leaves nothing is the only child of the root. -/
theorem parseBlock_of_onCourse {options : Options} {code : EmbeddedCode σ} {host : σ}
    {source : String} {block : List Tree}
    (h : OnCourse options [block, []] [] [] (blockEnd options code host source)) :
    ∃ p, parseBlock options code host source = .ok p ∧ p.diagnostics = [] ∧
      p.tree = .node .root [.node .markupBlock block] := parseBlock_leaving h

/-- A script with this body. -/
def script (options : Options) (body : String) : String :=
  "<" ++ options.scriptTagName ++ ">" ++ body ++ "</" ++ options.scriptTagName ++ ">"

/-- A node of literal text. -/
def literal (text : List Char) : Tree := .node .literal ((Token.lex text).map ofToken)

/-- The tree of a script: its tags and between them its body, as one piece of text if it has any. -/
def scriptNode (name body : List Char) : Tree :=
  .node .tagBlock (literal ('<' :: (name ++ ['>'])) :: (if body = [] then [] else [literal body]) ++
    [.node .tagBlock [literal (printEnd name)]])

theorem solid_closeAngle : Form.Solid '>' := Form.solid_of_whole .closeAngle rfl (by decide)

theorem lex_open (name rest : List Char) :
    Token.lex ('<' :: (name ++ '>' :: rest)) = openTokens name ++ Token.lex rest := by
  rw [Token.lex_whole '<' .openAngle rfl, Token.lex_append_solid solid_closeAngle,
    Token.lex_whole '>' .closeAngle rfl, openTokens, List.cons_append, List.append_assoc]
  rfl

/-- The tokens of a script are those of its parts. -/
theorem lex_script (options : Options) (body : String) : Token.lex (script options body).toList =
    openTokens options.scriptTagName.toList ++
      (Token.lex body.toList ++ endTokens options.scriptTagName.toList) := by
  have hsource : (script options body).toList =
      '<' :: (options.scriptTagName.toList ++ '>' :: (body.toList ++
        printEnd options.scriptTagName.toList)) := by
    simp [script, printEnd]
  have hend := lex_end options.scriptTagName.toList []
  rw [List.append_nil, Token.lex, List.append_nil] at hend
  rw [hsource, lex_open, printEnd, Token.lex_append_solid solid_openAngle, ← printEnd, hend]

/-- The body of a script as a node, if it has any text. -/
theorem flushTrees_lex (body : List Char) : flushTrees .literal (Token.lex body).reverse =
    if body = [] then [] else [literal body] := by
  cases body with
  | nil => rfl
  | cons c body =>
    obtain ⟨t, ts, hlex, -⟩ := Token.lex_cons c body
    rw [if_neg (List.cons_ne_nil _ _)]
    exact flushTrees_reverse (by simp [hlex]) .literal

/-- The unit is the script, as its tree says. -/
theorem onCourse_script (options : Options) (code : EmbeddedCode σ) (host : σ) (body : String)
    (hname : ∀ t ∈ Token.lex options.scriptTagName.toList, t.kind = .text)
    (hvoid : options.isVoidElement options.scriptTagName.toList = false)
    (htext : options.isTextTag options.scriptTagName.toList = false) (hat : '@' ∉ body.toList)
    (hbody : Text.Unclosed options.scriptTagName.toList body.toList) :
    OnCourse options [[scriptNode options.scriptTagName.toList body.toList], []] [] []
      (blockEnd options code host (script options body)) := by
  have hstart := OnCourse.blockStart options host (script options body)
  rw [lex_script] at hstart
  have hcurrent : (blockStart options host (script options body)).current = .openAngle :=
    current_cons hstart.ahead
  have hfirst := (hstart.skipTo_at code .openAngle rfl (by decide)).flush
  rw [List.reverse_nil, flushTrees_nil, List.append_nil] at hfirst
  obtain ⟨d, m, hopen, hindex, htag⟩ :=
    hfirst.tag_script code hname (Text.sameIgnoringCase_iff.mpr rfl) hvoid htext
  have htokens : ∀ t ∈ Token.lex body.toList, t.kind ≠ .transition ∧ t.kind ≠ .commentOpen :=
    fun t ht => ⟨Token.kind_ne_of_mem_lex ht rfl (by simpa [Token.starters] using hat),
      Token.kind_ne_of_mem_lex ht rfl (by simpa [Token.starters] using hat)⟩
  have hread := (hopen.scriptBody code hname htokens (Token.unclosed_lex hbody)).complete hindex
    .tagBlock
  have hend : blockEnd options code host (script options body) =
      ((d.scriptBody code options.scriptTagName.toList).complete m .tagBlock).flush .literal := by
    have hmore : ¬ (((blockStart options host (script options body)).skipTo code .openAngle).flush
        .literal).atEnd = true := by
      rw [atEnd, hfirst.ahead]
      exact Bool.false_ne_true
    rw [blockEnd_of_openAngle hcurrent, tagBlock, tagsFrom]
    dsimp only
    rw [if_neg hmore, htag]
    exact endTags_eq (by rw [hread.ahead]; decide) (by rw [hread.ahead]; decide)
  have hunit := hread.flush
  rw [← hend] at hunit
  have hopener := lex_open options.scriptTagName.toList []
  have hcloser := lex_end options.scriptTagName.toList []
  rw [Token.lex, List.append_nil] at hopener hcloser
  rw [List.append_nil] at hcloser
  simpa [scriptNode, literal, flushTrees_lex, hopener, hcloser] using hunit

/-- A script whose name is written in text tokens ends at the first end tag of this name. Everything
in between is one piece of text, nothing is reported and nothing is left. -/
theorem parseBlock_script (options : Options) (code : EmbeddedCode σ) (host : σ) (body : String)
    (hname : ∀ t ∈ Token.lex options.scriptTagName.toList, t.kind = .text)
    (hvoid : options.isVoidElement options.scriptTagName.toList = false)
    (htext : options.isTextTag options.scriptTagName.toList = false) (hat : '@' ∉ body.toList)
    (hbody : Text.Unclosed options.scriptTagName.toList body.toList) :
    ∃ p, parseBlock options code host (script options body) = .ok p ∧ p.diagnostics = [] ∧
      p.unparsedText? = none ∧ p.tree =
        .node .root [.node .markupBlock [scriptNode options.scriptTagName.toList body.toList]] := by
  obtain ⟨p, hp, hdiagnostics, htree⟩ :=
    parseBlock_of_onCourse (onCourse_script options code host body hname hvoid htext hat hbody)
  refine ⟨p, hp, hdiagnostics, ?_, htree⟩
  rw [Parse.unparsedText?, htree]
  rfl

/-- End tags of other names, of a part of the name and with spacing in front of it, a comment, and a
`<` in front of the end tag. -/
theorem parseBlock_script_almost :
    Text.Unclosed "script".toList "</b></scrip></script-></ script><!-- \"</!script><".toList ∧
      ∃ p, parseBlock {} .implicit () (script {} "</b></scrip></script-></ script><!-- \"</!script><") =
        .ok p ∧ p.diagnostics = [] ∧ p.unparsedText? = none ∧
        p.tree = .node .root [.node .markupBlock [scriptNode "script".toList
          "</b></scrip></script-></ script><!-- \"</!script><".toList]] := by
  have hbody : Text.Unclosed "script".toList
      "</b></scrip></script-></ script><!-- \"</!script><".toList := by decide +kernel
  exact ⟨hbody, parseBlock_script {} .implicit () _ (by decide) (by decide) (by decide) (by decide)
    hbody⟩

end Parse

end TemplateMarkup
