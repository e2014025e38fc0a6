import TemplateMarkup.Proofs.Outcome
import TemplateMarkup.Proofs.TagMachine

/-! # A sequence of tags is parsed as the machine reads it

`Stands` relates the machine to the parser between two tags: each open element
is an open tag whose node is an open frame of the tree. Every step of the machine
is matched by reading one tag, and a run by the walk over the tags. -/

namespace TemplateMarkup

open Cursor

/-- The open elements are the open tags, and each owns an open node that holds its tag blocks. Behind
them stand the nodes of the unit and of the whole source. -/
inductive Standing (spans : List TagSpan) :
    List OpenElement → OpenTags → List Frame → Nat → Prop
  | ground {ps : List Piece} {offset : Nat} : Piece.tagSpansOf 0 ps = spans →
      offset = Text.width (Piece.textOf ps) →
      Standing spans [] [] [⟨⟨1⟩, ps⟩, ⟨⟨0⟩, []⟩] offset
  | element {o : OpenElement} {stack : List OpenElement} {tags : OpenTags} {m : Marker}
      {ps : List Piece} {fs : List Frame} {offset : Nat} : Piece.tagSpansOf o.start ps = o.inner →
      offset = o.start + Text.width (Piece.textOf ps) → Standing spans stack tags fs o.start →
      Standing spans (o :: stack) (⟨o.name, o.start, some m⟩ :: tags) (⟨m, ps⟩ :: fs) offset

/-- The parser is where the machine is. -/
structure Stands {σ : Type} (s : TagMachine) (c : Cursor σ) (tags : OpenTags) : Prop where
  frames : ∃ m ps fs, Views c m ps fs ∧ Standing s.spans s.stack tags (⟨m, ps⟩ :: fs) s.offset
  offset : c.offset = s.offset
  reports : c.diagnostics.toList = s.reports
  held : c.held = []
  context : c.context = { options := {} }

variable {σ : Type} {code : EmbeddedCode σ} {c d : Cursor σ} {s : TagMachine} {tags : OpenTags}
  {used rest : List Token} {ps : List Piece} {t : OpenTag} {e : TagEvent} {es : List TagEvent}

theorem Standing.length_eq {spans : List TagSpan} {stack : List OpenElement} {fs : List Frame}
    {offset : Nat} (h : Standing spans stack tags fs offset) : stack.length = tags.length := by
  induction h with
  | ground => rfl
  | element _ _ _ ih => exact congrArg Nat.succ ih

/-! ## Steps of the machine that the cursor follows -/

namespace Cursor

theorem Takes.textOf_eq (h : Takes used ps c d) (hh : c.held = []) :
    Piece.textOf ps = Token.textOf used := by
  have hr := h.adds.rest
  simp only [Cursor.rest, hh, h.held, h.ahead, List.reverse_nil, List.nil_append,
    Token.textOf_append] at hr
  exact (List.append_cancel_right hr).symm

end Cursor

namespace Stands

/-- Tokens are read into the innermost open node. -/
theorem takes (h : Stands s c tags) (ht : Takes used ps c d) :
    Stands { s.add (Piece.tagSpansOf s.offset ps) with
      offset := s.offset + Token.widthOf used } d tags := by
  obtain ⟨m, qs, fs, hv, hstanding⟩ := h.frames
  have hview := ht.adds.view hv
  have hwidth : Text.width (Piece.textOf ps) = Token.widthOf used := by
    rw [ht.textOf_eq h.held, Token.widthOf_eq]
  have hoffset := ht.offset_eq.trans (congrArg (· + Token.widthOf used) h.offset)
  have hreports : d.diagnostics.toList = s.reports := by rw [ht.adds.diagnostics, h.reports]
  have hcontext := ht.context_eq.trans h.context
  obtain ⟨offset, stack, spans, reports⟩ := s
  cases hstanding with
  | ground hspans ho =>
    refine ⟨⟨_, _, _, hview, .ground ?_ ?_⟩, hoffset, hreports, ht.held, hcontext⟩
    · dsimp only at ho ⊢
      rw [Piece.tagSpansOf_append, hspans, Nat.zero_add, ← ho]
      rfl
    · dsimp only at ho ⊢
      rw [Piece.textOf_append, Text.width_append, hwidth, ← ho]
  | element hinner ho houter =>
    refine ⟨⟨_, _, _, hview, .element ?_ ?_ houter⟩, hoffset, hreports, ht.held, hcontext⟩
    · dsimp only at ho ⊢
      rw [Piece.tagSpansOf_append, hinner, ← ho]
    · dsimp only at ho ⊢
      rw [Piece.textOf_append, Text.width_append, hwidth, ho, Nat.add_assoc]

/-- Nothing that the machine knows of changes. -/
theorem silent (h : Stands s c tags) (ht : Takes [] [] c d) : Stands s d tags := by
  have hd := h.takes ht
  obtain ⟨offset, stack, spans, reports⟩ := s
  cases stack <;> simpa [TagMachine.add, Piece.tagSpansOf, Token.widthOf] using hd

/-- A node is started for an element. -/
theorem start (h : Stands s c tags) (name : List Char) :
    Stands { s with stack := ⟨name, s.offset, []⟩ :: s.stack } c.start.2
      (⟨name, c.offset, some c.start.1⟩ :: tags) := by
  obtain ⟨m, qs, fs, hv, hstanding⟩ := h.frames
  have hoffset : c.start.2.offset = s.offset :=
    (offset_congr (text_congr (tokens_start c)) (ahead_start c)).trans h.offset
  refine ⟨⟨_, _, _, hv.start, ?_⟩, hoffset, ?_, (held_start c).trans h.held, ?_⟩
  · rw [h.offset]
    exact .element rfl rfl hstanding
  · rw [← h.reports]
    exact congrArg Array.toList (diagnostics_flush c _)
  · exact (context_flush c _).trans h.context

/-- The innermost open tag is closed. -/
theorem close (h : Stands s c (t :: tags)) : Stands s.pop (t.close c) tags := by
  obtain ⟨m, qs, fs, hv, hstanding⟩ := h.frames
  obtain ⟨offset, stack, spans, reports⟩ := s
  cases hstanding with
  | @element o stack _ m ps fs _ hinner ho houter =>
    have hoffset : (c.complete m .tagBlock).offset = offset :=
      (offset_congr (text_congr (tokens_complete c m _)) (ahead_complete c m _)).trans h.offset
    have hreports : (c.complete m .tagBlock).diagnostics.toList = reports := by
      rw [diagnostics_complete, h.reports]
    have hheld := (held_complete c m .tagBlock).trans h.held
    have hcontext := (context_complete c m .tagBlock).trans h.context
    dsimp only at ho
    cases houter with
    | @ground qs _ hspans hq =>
      have hview := hv.complete .tagBlock (by decide)
      refine ⟨⟨_, _, _, hview, .ground ?_ ?_⟩, hoffset, hreports, hheld, hcontext⟩
      · dsimp only
        rw [Piece.tagSpansOf_append, hspans, Nat.zero_add, ← hq]
        simp [Piece.tagSpansOf, Piece.tagSpans, hinner, ho, TagMachine.pop, TagMachine.add]
      · simp [TagMachine.pop, TagMachine.add, Piece.textOf, Piece.text, ho, ← hq]
    | @element o' stack' tags' m' qs fs' _ hinner' hq houter' =>
      have hview := hv.complete .tagBlock (by decide)
      refine ⟨⟨_, _, _, hview, .element ?_ ?_ houter'⟩, hoffset, hreports, hheld, hcontext⟩
      · dsimp only
        rw [Piece.tagSpansOf_append, hinner', ← hq]
        simp [Piece.tagSpansOf, Piece.tagSpans, hinner, ho]
      · simp [TagMachine.pop, TagMachine.add, Piece.textOf, Piece.text, ho, hq]
        omega

theorem report (h : Stands s c tags) (problem : Problem) {range : Range}
    (hr : range.start ≤ range.stop) : Stands (s.report problem range) (c.report problem range) tags := by
  obtain ⟨m, qs, fs, hv, hstanding⟩ := h.frames
  have hsame : c.report problem range =
      { c with diagnostics := c.diagnostics.push ⟨problem, range⟩ } := by
    rw [Cursor.report, if_neg (by omega)]
  rw [hsame]
  have hview := hv.same (d := { c with diagnostics := c.diagnostics.push ⟨problem, range⟩ }) rfl rfl
    rfl hv.sane
  refine ⟨⟨m, qs, fs, hview, hstanding⟩, h.offset, ?_, h.held, h.context⟩
  simp [TagMachine.report, h.reports]

/-- The innermost open tag is closed for want of an end tag. -/
theorem skip (h : Stands s c (t :: tags)) : Stands s.skip (t.closeUnended c) tags := by
  have hclosed := (h.report (.missingEndTag t.name) (Range.ofText_ordered (t.start + 1) t.name)).close
  obtain ⟨m, qs, fs, -, hstanding⟩ := h.frames
  obtain ⟨offset, stack, spans, reports⟩ := s
  cases hstanding with
  | element => exact hclosed

/-! ## One tag -/

theorem stack_cons (h : Stands s c (t :: tags)) :
    ∃ o stack, s.stack = o :: stack ∧ o.name = t.name := by
  obtain ⟨m, qs, fs, -, hstanding⟩ := h.frames
  obtain ⟨offset, stack, spans, reports⟩ := s
  cases hstanding with
  | @element o stack => exact ⟨o, stack, rfl, rfl⟩

theorem stack_nil (h : Stands s c []) : s.stack = [] := by
  obtain ⟨m, qs, fs, -, hstanding⟩ := h.frames
  obtain ⟨offset, stack, spans, reports⟩ := s
  cases hstanding with
  | ground => rfl

/-- The tags taken off for an end tag are the elements that the machine skips. -/
theorem removeMatching (h : Stands s c (t :: tags)) (name : List Char) (endTag : Nat) :
    ∃ t? rest d, OpenTags.removeMatching name endTag (t :: tags) c = (t?, rest, d) ∧
      Stands (TagMachine.skips (TagMachine.unmatched name s.stack) s) d (t?.toList ++ rest) ∧
      (t? = none → rest = []) := by
  induction tags generalizing s c t with
  | nil =>
    obtain ⟨o, stack, hstack, hname⟩ := h.stack_cons
    have hskip := h.skip
    have hnil : TagMachine.unmatched name stack = 0 := by
      have hempty := hskip.stack_nil
      rw [← TagMachine.unmatched_skip hstack, hempty]
      rfl
    by_cases hsame : Text.sameIgnoringCase t.name name = true
    · refine ⟨some t, [], c, by rw [OpenTags.removeMatching, if_pos hsame], ?_, nofun⟩
      have hzero : TagMachine.unmatched name s.stack = 0 := by
        simp [TagMachine.unmatched, hstack, hname, hsame]
      rw [hzero]
      exact h
    · refine ⟨none, [], _, by rw [OpenTags.removeMatching, if_neg hsame]; rfl, ?_, fun _ => rfl⟩
      have hone : TagMachine.unmatched name s.stack = TagMachine.unmatched name stack + 1 := by
        simp [TagMachine.unmatched, hstack, hname, hsame]
      rw [hone, hnil]
      exact hskip
  | cons u tags ih =>
    obtain ⟨o, stack, hstack, hname⟩ := h.stack_cons
    by_cases hsame : Text.sameIgnoringCase t.name name = true
    · refine ⟨some t, u :: tags, c, by rw [OpenTags.removeMatching, if_pos hsame], ?_, nofun⟩
      have hzero : TagMachine.unmatched name s.stack = 0 := by
        simp [TagMachine.unmatched, hstack, hname, hsame]
      rw [hzero]
      exact h
    · obtain ⟨t?, rest, d, hremove, hstands, hnone⟩ := ih h.skip
      refine ⟨t?, rest, d, ?_, ?_, hnone⟩
      · rw [OpenTags.removeMatching, if_neg hsame, ← hremove]
        rfl
      · have hone : TagMachine.unmatched name s.stack = TagMachine.unmatched name stack + 1 := by
          simp [TagMachine.unmatched, hstack, hname, hsame]
        rw [hone]
        rwa [TagMachine.unmatched_skip hstack] at hstands

theorem unwind (h : Stands s c tags) (e : TagEvent) :
    ∃ t? rest d, OpenTags.removeMatching e.fullName c.offset tags c = (t?, rest, d) ∧
      Stands (s.unwind e) d (t?.toList ++ rest) ∧ (t? = none → rest = []) := by
  cases tags with
  | nil =>
    have hreport := h.report (.unexpectedEndTag e.fullName)
      (Range.ofText_ordered (s.offset + 2) e.fullName)
    refine ⟨none, [], _, rfl, ?_, fun _ => rfl⟩
    rw [TagMachine.unwind, h.stack_nil, if_pos List.isEmpty_nil, h.offset]
    exact hreport
  | cons t tags =>
    obtain ⟨o, stack, hstack, -⟩ := h.stack_cons
    rw [TagMachine.unwind, if_neg (by simp [hstack])]
    exact h.removeMatching e.fullName c.offset

theorem step_start (h : Stands s c tags) (he : e.Plain) (hc : e.closing = false)
    (ha : c.ahead = e.tokens ++ rest) : ∃ d tags' complete, c.tag code tags = ⟨d, tags', complete⟩ ∧
      Stands (s.step e) d tags' ∧ d.ahead = rest := by
  have htokens : e.tokens = ⟨.openAngle, ['<']⟩ :: e.nameTokens ++ [⟨.closeAngle, ['>']⟩] := by
    simp [TagEvent.tokens, hc]
  have hahead : c.ahead =
      ⟨.openAngle, ['<']⟩ :: e.nameTokens ++ (⟨.closeAngle, ['>']⟩ :: rest) := by simp [ha, htokens]
  have hstop : ∀ t ∈ (⟨.closeAngle, ['>']⟩ :: rest : List Token).head?, t.kind ≠ .text := by
    rintro t ⟨⟩
    decide
  obtain ⟨htag, hname⟩ := tag_start code tags (TagEvent.written he) h.held hahead
    hstop (.inr (by rw [h.context]; exact TagEvent.not_text he))
  generalize c.start.2.bump.bangEscape.eatName = d at htag hname
  have hnext := hname.ahead_eq ((ahead_start c).trans hahead)
  have hcontext : d.context = { options := {} } :=
    (hname.context_eq.trans (context_flush c _)).trans h.context
  have hnone : d.attributes code = ([], d) := attributes_atTagEnd (.inl (by rw [hnext]; rfl))
  obtain ⟨hrest, hclose⟩ := restOfStartTag_open (c := d) tags c.start.1 c.offset
    (by rw [hnone]; exact Takes.refl hname.held) hnext rfl
    (by rw [hcontext]; exact TagEvent.not_void he) (by rw [hcontext]; exact TagEvent.not_script he)
  generalize (d.attributes code).2.bump.flush .literal = d' at hrest hclose
  have hpieces : .leaf ⟨.openAngle, ['<']⟩ :: e.namePieces ++ [.leaf ⟨.closeAngle, ['>']⟩] =
      e.pieces := by simp [TagEvent.pieces, hc]
  have hall := hname.trans hclose
  rw [List.nil_append, List.nil_append, ← htokens, hpieces] at hall
  refine ⟨d', _, true, htag.trans hrest, ?_, hall.ahead_eq ((ahead_start c).trans ha)⟩
  have hstands := (h.start e.fullName).takes hall
  rw [TagEvent.tagSpansOf_pieces, TagMachine.add_nil, Token.widthOf_eq, TagEvent.textOf_tokens]
    at hstands
  rw [TagMachine.step, hc, if_neg Bool.false_ne_true]
  exact hstands

theorem step_end (h : Stands s c tags) (he : e.Plain) (hc : e.closing = true)
    (ha : c.ahead = e.tokens ++ rest) : ∃ d tags' complete, c.tag code tags = ⟨d, tags', complete⟩ ∧
      Stands (s.step e) d tags' ∧ d.ahead = rest := by
  have htokens : e.tokens =
      ⟨.openAngle, ['<']⟩ :: ⟨.slash, ['/']⟩ :: e.nameTokens ++ [⟨.closeAngle, ['>']⟩] := by
    simp [TagEvent.tokens, hc]
  have hahead : c.ahead = ⟨.openAngle, ['<']⟩ :: ⟨.slash, ['/']⟩ :: e.nameTokens ++
      ⟨.closeAngle, ['>']⟩ :: rest := by simp [ha, htokens]
  have hstop : ∀ t ∈ (⟨.closeAngle, ['>']⟩ :: rest : List Token).head?, t.kind ≠ .text := by
    rintro t ⟨⟩
    decide
  have hwritten := TagEvent.written he
  obtain ⟨htag, hend, hname⟩ := tag_end code tags hwritten hahead rfl hstop
  obtain ⟨t?, tags', d, hremove, hstands, hnone⟩ := h.unwind e
  have hd : d.ahead = c.ahead := by
    have hsame := ahead_removeMatching e.fullName c.offset tags c
    rwa [hremove] at hsame
  obtain ⟨hclosed, hblock⟩ := Takes.endTagBlock hwritten hstands.held (hd.trans hahead) rfl e.fullName
  have hpieces : .leaf ⟨.openAngle, ['<']⟩ :: .leaf ⟨.slash, ['/']⟩ :: e.namePieces ++
      [.leaf ⟨.closeAngle, ['>']⟩] = e.pieces := by simp [TagEvent.pieces, hc]
  rw [← htokens, hpieces] at hblock
  have hafter : (d.endTagBlock e.fullName).2.ahead = rest := hblock.ahead_eq (hd.trans ha)
  have hspan : Piece.tagSpansOf (s.unwind e).offset [.part .tagBlock e.pieces] =
      [.span s.offset (s.offset + Text.width e.text) []] := by
    simp [Piece.tagSpansOf, Piece.tagSpans, TagEvent.tagSpansOf_pieces, TagEvent.textOf_pieces,
      TagMachine.offset_unwind]
  have hread := hstands.takes hblock
  rw [hspan, Token.widthOf_eq, TagEvent.textOf_tokens, TagMachine.offset_unwind] at hread
  rw [htag, endTag, if_neg hend, hname, TagMachine.step, hc, if_pos rfl]
  dsimp only
  rw [hremove]
  cases t? with
  | none =>
    obtain rfl : tags' = [] := hnone rfl
    refine ⟨_, [], _, rfl, ?_, hafter⟩
    have hpop : s.close e = { (s.unwind e).add [.span s.offset (s.offset + Text.width e.text) []] with
        offset := s.offset + Text.width e.text } := by
      rw [TagMachine.close, TagMachine.pop, hread.stack_nil]
    rw [hpop]
    exact hread
  | some t =>
    have htext : ¬ (tags'.isEmpty = true ∧ d.context.options.isTextTag e.fullName = true) := by
      rw [hstands.context, TagEvent.not_text he]
      simp
    refine ⟨t.close (d.endTagBlock e.fullName).2, tags', true, ?_, hread.close, ?_⟩
    · dsimp only
      rw [if_neg htext, hclosed]
    · unfold OpenTag.close
      split <;> simpa using hafter

theorem step (h : Stands s c tags) (code : EmbeddedCode σ) (he : e.Plain) (ha : c.ahead = e.tokens ++ rest) :
    ∃ d tags' complete, c.tag code tags = ⟨d, tags', complete⟩ ∧ Stands (s.step e) d tags' ∧
      d.ahead = rest := by
  cases hc : e.closing with
  | false => exact h.step_start he hc ha
  | true => exact h.step_end he hc ha

/-! ## Whole runs -/

theorem stack_isEmpty (h : Stands s c tags) : s.stack.isEmpty = tags.isEmpty := by
  cases tags with
  | nil =>
    rw [h.stack_nil]
    rfl
  | cons t tags =>
    obtain ⟨o, stack, hstack, -⟩ := h.stack_cons
    rw [hstack]
    rfl

/-- The walk over the tags reads what the machine reads and stops where it does. -/
theorem run (h : Stands s c tags) (code : EmbeddedCode σ) (hes : ∀ e ∈ es, e.Plain)
    (ha : c.ahead = es.flatMap TagEvent.tokens) {bound : Nat} (hb : es.length < bound)
    (complete : Bool) : ∃ d tags' complete',
      tagsFrom code bound ⟨c, tags, complete⟩ = ⟨d, tags', complete'⟩ ∧
      Stands (s.run es).1 d tags' ∧ d.ahead = (s.run es).2.flatMap TagEvent.tokens := by
  induction es generalizing s c tags bound complete with
  | nil =>
    obtain ⟨bound, rfl⟩ := Nat.exists_eq_add_of_lt hb
    have hnone : Takes [] [] c (c.skipTo code .openAngle) :=
      Takes.skipTo code h.held (by rw [h.context]) nofun ha nofun nofun
    have hskip := hnone.flush_literal
    have hahead := hskip.ahead_eq ha
    refine ⟨_, tags, complete, ?_, h.silent hskip, hahead⟩
    rw [List.length_nil, Nat.zero_add, tagsFrom, if_pos (by rw [atEnd, hahead]; rfl)]
  | cons e es ih =>
    cases bound with
    | zero => exact absurd hb (Nat.not_lt_zero _)
    | succ bound =>
      obtain ⟨d, hskip, -, htags⟩ := tagsFrom_at code tags h.held
        (by rw [h.context]) ha rfl
      have hd := h.silent hskip
      obtain ⟨d', tags', complete', htag, hstep, hahead⟩ :=
        hd.step code (hes e (List.mem_cons_self ..)) (hskip.ahead_eq ha)
      have hempty := hstep.stack_isEmpty
      rw [htags, htag, resume, TagMachine.run, hempty]
      cases hstop : tags'.isEmpty with
      | true => exact ⟨d', tags', complete', rfl, hstep, hahead⟩
      | false =>
        exact ih hstep (fun e' he' => hes e' (List.mem_cons_of_mem e he')) hahead
          (Nat.lt_of_succ_lt_succ hb) complete'

theorem closeAll (h : Stands s c tags) :
    Stands (TagMachine.pops tags.length s) (tags.foldl (fun c t => t.close c) c) [] := by
  induction tags generalizing s c with
  | nil => exact h
  | cons t tags ih => exact ih h.close

theorem drain (h : Stands s c tags) : Stands s.finish (tags.drain c).2 [] := by
  obtain ⟨m, qs, fs, -, hstanding⟩ := h.frames
  have hlength := hstanding.length_eq
  cases tags with
  | nil =>
    have hnil := h.stack_nil
    have hskip : s.skip = s := by rw [TagMachine.skip, hnil]
    rw [TagMachine.finish, hlength, hskip]
    exact h
  | cons t tags =>
    have hall := h.skip.closeAll
    rw [TagMachine.finish, hlength]
    exact hall

end Stands

/-! ## The whole parse -/

theorem TagEvent.kindAt_tokens (es : List TagEvent) :
    Token.kindAt (es.flatMap TagEvent.tokens) 0 = if es = [] then .endOfInput else .openAngle := by
  cases es <;> rfl

/-- Behind the unit the parser is where the machine is at its end. -/
theorem Parse.stands_unitEnd (hne : es ≠ []) (hes : ∀ e ∈ es, e.Plain) {source : String}
    (htext : source.toList = es.flatMap TagEvent.text) :
    Stands (TagMachine.read es).1 (unitEnd source) [] ∧
      (unitEnd source).ahead = (TagMachine.read es).2.flatMap TagEvent.tokens := by
  have hahead : (unitStart source).ahead = es.flatMap TagEvent.tokens := by
    rw [ahead_unitStart, htext, TagEvent.lex_texts hes]
  have hkind : (unitStart source).current = .openAngle := by
    have hfirst := TagEvent.kindAt_tokens es
    rw [if_neg hne, ← hahead] at hfirst
    exact hfirst
  have hstart : Stands {} (unitStart source) [] :=
    ⟨⟨_, _, _, views_unitStart source, .ground rfl rfl⟩, rfl, rfl, rfl, rfl⟩
  have hbound : es.length < (unitStart source).unclaimed + 1 := by
    have hlen := length_le_unclaimed (List.append_nil (unitStart source).ahead).symm
      fun t ht => Token.text_ne_nil_of_mem_lex ht
    have hevents := TagEvent.length_le_tokens es
    rw [hahead] at hlen
    omega
  obtain ⟨d, tags, complete, htags, hrun, hd⟩ :=
    hstart.run .implicit hes hahead hbound false
  have hkinds := TagEvent.kindAt_tokens (TagMachine.run {} es).2
  rw [← hd] at hkinds
  have hend : unitEnd source = (tags.drain d).2.flush .literal := by
    rw [unitEnd_of_openAngle hkind, tagBlock, htags]
    refine endTags_eq ?_ ?_ <;>
      · rw [hkinds]
        split <;> decide
  have hdrain := hrun.drain
  rw [hend]
  exact ⟨hdrain.silent (Takes.refl hdrain.held).flush_literal,
    (ahead_flush _ _).trans ((ahead_drain tags d).trans hd)⟩

/-- A sequence of tags is parsed as the machine reads it: the same diagnostics, the same tag blocks
nested the same way, and the tags that the machine does not read are left to the host. -/
theorem parse_tags {es : List TagEvent} (hne : es ≠ []) (hes : ∀ e ∈ es, e.Plain) :
    ∃ p used, parse (String.ofList (es.flatMap TagEvent.text)) = .ok p ∧
      p.diagnostics = (TagMachine.read es).1.reports ∧
      p.tree.tagSpans 0 = (TagMachine.read es).1.spans ∧
      es = used ++ (TagMachine.read es).2 ∧
      p.markupText? = some (used.flatMap TagEvent.text) ∧
      p.unparsedText? = if (TagMachine.read es).2 = [] then none
        else some ((TagMachine.read es).2.flatMap TagEvent.text) := by
  generalize hsource : String.ofList (es.flatMap TagEvent.text) = source
  have htext : source.toList = es.flatMap TagEvent.text := by rw [← hsource, String.toList_ofList]
  obtain ⟨hstands, hahead⟩ := Parse.stands_unitEnd hne hes htext
  obtain ⟨used, hused⟩ := TagMachine.run_suffix {} es
  have hrest : (Parse.unitEnd source).rest = (TagMachine.read es).2.flatMap TagEvent.text := by
    rw [Cursor.rest, hstands.held, hahead]
    exact TagEvent.textOf_flatMap_tokens _
  have hnil := hstands.stack_nil
  obtain ⟨m, ps, fs, hv, hstanding⟩ := hstands.frames
  rw [hnil] at hstanding
  cases hstanding with
  | ground hspans =>
    obtain ⟨p, hp, hcovers, hdiagnostics, htree, hunparsed⟩ := Parse.tagSpans_of_views hv
    obtain ⟨markup, hmarkup, hsplit⟩ := hcovers.markupText
    have hleft : p.unparsedText? = if (TagMachine.read es).2 = [] then none
        else some ((TagMachine.read es).2.flatMap TagEvent.text) := by
      rw [hunparsed, hrest]
      cases (TagMachine.read es).2 <;> rfl
    have hgetD : p.unparsedText?.getD [] = (TagMachine.read es).2.flatMap TagEvent.text := by
      rw [hleft]
      cases (TagMachine.read es).2 <;> rfl
    have hmarkupText : markup = used.flatMap TagEvent.text := by
      have hall : es.flatMap TagEvent.text =
          used.flatMap TagEvent.text ++ (TagMachine.read es).2.flatMap TagEvent.text := by
        rw [← List.flatMap_append]
        exact congrArg _ hused
      rw [hgetD, htext, hall] at hsplit
      exact List.append_cancel_right hsplit
    exact ⟨p, used, hp, hdiagnostics.trans hstands.reports, htree.trans hspans, hused,
      by rw [hmarkup, hmarkupText], hleft⟩

/-- `<p><!b></P></i>`: the end tag in the other case closes both elements, and the last tag is left. -/
theorem parse_tags_misnested :
    let es : List TagEvent := [⟨false, false, ['p']⟩, ⟨false, true, ['b']⟩, ⟨true, false, ['P']⟩,
      ⟨true, false, ['i']⟩]
    es ≠ [] ∧ (∀ e ∈ es, e.Plain) ∧ ∃ p used, parse (String.ofList (es.flatMap TagEvent.text)) = .ok p ∧
      p.diagnostics = [⟨.missingEndTag ['!', 'b'], ⟨4, 6⟩⟩] ∧
      p.tree.tagSpans 0 = [.span 0 11 [.span 3 7 [], .span 7 11 []]] ∧
      es = used ++ [⟨true, false, ['i']⟩] ∧
      p.markupText? = some (used.flatMap TagEvent.text) ∧
      p.unparsedText? = some ['<', '/', 'i', '>'] :=
  ⟨by decide, by decide, parse_tags (by decide) (by decide)⟩

end TemplateMarkup
