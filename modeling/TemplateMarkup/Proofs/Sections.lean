import TemplateMarkup.Proofs.Extents
import TemplateMarkup.Proofs.ScriptBodies

/-! # Sections, instructions and declarations

A CDATA section, a processing instruction and a DOCTYPE are one piece of literal
text through the first terminator behind their opener, and no tag is looked for in
it. A terminator may begin with a part of itself, as `]]>` does in `]]]>`. -/

namespace TemplateMarkup

open Token TemplateMarkup.Tree

/-! ## Terminators -/

namespace Section

/-- The characters of terminators, each of which is a token of its own. -/
def marks : List Char := [']', '?', '>']

/-- The kinds of the tokens of a terminator. -/
def kindsOf (terminator : List Char) : List Kind := terminator.map fun d => (Form.ofChar d).kind

/-- Behind the body comes the terminator. -/
def EndsBehind (terminator text body : List Char) : Prop := body ++ terminator <+: text

variable {terminator text body : List Char} {d : Char}

theorem whole_of_mark (h : d ∈ marks) :
    Form.ofChar d = .whole (Form.ofChar d).kind ∧ (Form.ofChar d).kind ≠ .newline := by
  have hall : ∀ d ∈ marks, Form.ofChar d = .whole (Form.ofChar d).kind ∧
      (Form.ofChar d).kind ≠ .newline := List.all_iff_forall_prop.mp (by decide)
  exact hall d h

theorem solo_of_mark (h : d ∈ marks) : d ∈ soloChars := by
  have hall : marks ⊆ soloChars := by decide
  exact hall h

theorem lex_terminator (hmarks : ∀ d ∈ terminator, d ∈ marks) (rest : List Char) :
    lex (terminator ++ rest) =
      terminator.map (fun d => ⟨(Form.ofChar d).kind, [d]⟩) ++ lex rest := by
  induction terminator with
  | nil => rfl
  | cons d terminator ih =>
    obtain ⟨hd, hmarks⟩ := List.forall_mem_cons.mp hmarks
    rw [List.cons_append, lex_whole d _ (whole_of_mark hd).1, ih hmarks]
    rfl

theorem startsWith_lex (hmarks : ∀ d ∈ terminator, d ∈ marks) (text : List Char) :
    startsWith (kindsOf terminator) (lex text) = true ↔ terminator <+: text := by
  induction terminator generalizing text with
  | nil => simp [startsWith, kindsOf]
  | cons d terminator ih =>
    obtain ⟨hd, hmarks⟩ := List.forall_mem_cons.mp hmarks
    obtain ⟨hwhole, hk⟩ := whole_of_mark hd
    by_cases hfirst : [d] <+: text
    · obtain ⟨rest, rfl⟩ := hfirst
      rw [List.singleton_append, lex_whole d _ hwhole, List.cons_prefix_cons, and_iff_right rfl,
        ← ih hmarks rest]
      simp [startsWith, kindsOf]
    · refine iff_of_false (fun hstart => ?_) fun hfront =>
        hfirst ((List.prefix_append [d] terminator).trans hfront)
      refine hfirst ((kindAt_lex_whole hwhole hk).mp ?_)
      cases hlex : lex text with
      | nil => simp [startsWith, kindsOf, hlex] at hstart
      | cons t ts =>
        simp only [startsWith, kindsOf, hlex, List.map_cons, List.length_cons, List.take_succ_cons,
          beq_iff_eq, List.cons.injEq] at hstart
        exact hstart.1

/-- The tokens of a text through the first row of such kinds are the text through its first
terminator. -/
theorem through_lex (hne : terminator ≠ []) (hmarks : ∀ d ∈ terminator, d ∈ marks)
    (text : List Char) : Text.Through (EndsBehind terminator) terminator text
      (textOf (through (kindsOf terminator) (lex text))) := by
  have htext : Text.Through (EndsBehind terminator) terminator (textOf (lex text))
      (textOf (through (kindsOf terminator) (lex text))) := by
    refine text_through (fun body h => hne ?_) (fun us hus hstart => ?_)
      fun t us hus hpass body => ?_
    · exact (List.append_eq_nil_iff.mp (List.prefix_nil.mp h)).2
    · rw [← lex_textOf_suffix hus, startsWith_lex hmarks] at hstart
      refine ⟨hstart, ?_⟩
      obtain ⟨rest, hrest⟩ := hstart
      rw [← lex_textOf_suffix hus, ← hrest, lex_terminator hmarks, kindsOf, List.length_map,
        List.take_left' (List.length_map _)]
      clear hrest hmarks hne
      induction terminator <;> simp_all
    · rw [← lex_textOf_suffix hus, Bool.eq_false_iff, ne_eq, startsWith_lex hmarks] at hpass
      unfold EndsBehind
      rw [Text.closer_prefix_append]
      refine or_iff_left ?_
      rintro ⟨more, hmore, hinside, hfront⟩
      -- the terminator begins where the token does
      obtain ⟨d, word, rfl⟩ := List.exists_cons_of_ne_nil hne
      obtain ⟨a, more, rfl⟩ := List.exists_cons_of_ne_nil hmore
      obtain ⟨rfl, -⟩ := List.cons_prefix_cons.mp hfront
      have htable := inTable_iff.mp ((maximalMunch_lex text).suffix hus).1
      have hsolo := htable.eq_singleton (by simp [hinside])
        (solo_of_mark (hmarks d (List.mem_cons_self ..)))
      obtain rfl : body = [] := by
        rw [hsolo] at hinside
        cases body with
        | nil => rfl
        | cons b body => simp at hinside
      rw [textOf_cons, hinside] at hpass
      exact hpass hfront
  rwa [textOf_lex] at htext

/-! ## Openers -/

/-- The openers of sections with their terminators, in front of a text. The name of a DOCTYPE is all
of a run. -/
inductive Introduces : (opener terminator text : List Char) → Prop
  | cdata {name text : List Char} : Text.sameIgnoringCase name "cdata".toList = true →
      Introduces ('<' :: '!' :: '[' :: (name ++ ['['])) [']', ']', '>'] text
  | instruction {text : List Char} : Introduces ['<', '?'] ['?', '>'] text
  | doctype {name text : List Char} : Text.sameIgnoringCase name "DOCTYPE".toList = true →
      (∀ c ∈ text.head?, c ∈ markChars) → Introduces ('<' :: '!' :: name) ['>'] text

theorem Introduces.marks {opener : List Char} (h : Introduces opener terminator text) :
    terminator ≠ [] ∧ ∀ d ∈ terminator, d ∈ marks := by
  cases h <;> exact ⟨List.cons_ne_nil _ _, List.all_iff_forall_prop.mp (by decide)⟩

theorem Introduces.openAngle {opener : List Char} (h : Introduces opener terminator text) :
    ['<'] <+: opener := by
  cases h <;> exact ⟨_, rfl⟩

theorem kindsOf_ne (hmarks : ∀ d ∈ terminator, d ∈ marks) {kind : Kind}
    (h : kind ∈ kindsOf terminator) : kind ≠ .whitespace ∧ kind ≠ .newline := by
  have hall : ∀ d ∈ marks, (Form.ofChar d).kind ≠ .whitespace ∧ (Form.ofChar d).kind ≠ .newline :=
    List.all_iff_forall_prop.mp (by decide)
  obtain ⟨d, hd, rfl⟩ := List.mem_map.mp h
  exact hall d (hmarks d hd)

/-- What differs from a run in the case of letters only is a run. -/
theorem run_of_same {name word : List Char} (h : Text.sameIgnoringCase name word = true)
    (hword : ∀ c ∈ word, Form.ofChar c = .run) : ∀ c ∈ name, Form.ofChar c = .run := by
  intro c hc
  have hfold : c.toLower ∈ Text.foldCase word := by
    rw [← Text.sameIgnoringCase_iff.mp h]
    exact List.mem_map_of_mem hc
  obtain ⟨d, hd, hcase⟩ := List.mem_map.mp hfold
  rw [← (Form.form_toLower .run c).1, ← hcase, (Form.form_toLower .run d).1]
  exact hword d hd

theorem lex_run_append {name rest : List Char} (hne : name ≠ [])
    (hrun : ∀ c ∈ name, Form.ofChar c = .run) (hrest : ∀ c ∈ rest.head?, c ∈ markChars) :
    lex (name ++ rest) = ⟨.text, name⟩ :: lex rest := by
  cases rest with
  | nil => rw [List.append_nil, lex_run hne hrun, lex]
  | cons c rest =>
    obtain ⟨b, name, rfl⟩ := List.exists_cons_of_ne_nil hne
    obtain ⟨hb, hname⟩ := List.forall_mem_cons.mp hrun
    have hreach : (Form.ofChar b).reach name = .run := by
      rw [hb]
      exact Form.reach_same fun d hd => Form.extend?_run (hname d hd)
    have hstop : Form.run.extend? c = none := by
      rw [Form.extend?, if_neg fun hc => Form.ofChar_eq_run.mp hc (hrest c rfl)]
    have hsplit : lex ((b :: name) ++ c :: rest) = lex (b :: name) ++ lex (c :: rest) :=
      lexFrom_append (hreach ▸ hstop)
    rw [hsplit, lex_run hne hrun]
    rfl

/-- The tokens of the openers. -/
theorem lex_instruction (text : List Char) : lex (['<', '?'] ++ text) =
    [⟨.openAngle, ['<']⟩, ⟨.questionMark, ['?']⟩] ++ lex text := by
  rw [List.cons_append, lex_whole '<' .openAngle rfl, List.cons_append,
    lex_whole '?' .questionMark rfl]
  rfl

theorem lex_cdata {name : List Char} (h : Text.sameIgnoringCase name "cdata".toList = true)
    (text : List Char) : lex ('<' :: '!' :: '[' :: (name ++ ['[']) ++ text) =
      [⟨.openAngle, ['<']⟩, ⟨.bang, ['!']⟩, ⟨.openBracket, ['[']⟩, ⟨.text, name⟩,
        ⟨.openBracket, ['[']⟩] ++ lex text := by
  have hne : name ≠ [] := by
    rintro rfl
    cases h
  simp only [List.cons_append, List.append_assoc, List.nil_append]
  rw [lex_whole '<' .openAngle rfl, lex_whole '!' .bang rfl, lex_whole '[' .openBracket rfl,
    lex_run_append hne (run_of_same h (List.all_iff_forall_prop.mp (by decide)))
      (by simp [markChars]),
    lex_whole '[' .openBracket rfl]

theorem lex_doctype {name : List Char} (h : Text.sameIgnoringCase name "DOCTYPE".toList = true)
    (htext : ∀ c ∈ text.head?, c ∈ markChars) : lex ('<' :: '!' :: name ++ text) =
      [⟨.openAngle, ['<']⟩, ⟨.bang, ['!']⟩, ⟨.text, name⟩] ++ lex text := by
  have hne : name ≠ [] := by
    rintro rfl
    cases h
  simp only [List.cons_append]
  rw [lex_whole '<' .openAngle rfl, lex_whole '!' .bang rfl,
    lex_run_append hne (run_of_same h (List.all_iff_forall_prop.mp (by decide))) htext]
  rfl

end Section

/-! ## Reading a section -/

namespace Cursor

open Section

variable {σ : Type} {options : Options} {code : EmbeddedCode σ} {c : Cursor σ} {f : List Tree}
  {fs : List (List Tree)} {waiting us : List Token} {first : Kind} {kinds : List Kind}
  {opener terminator text : List Char} {bound : Nat}

/-- A scan through a row of tokens takes what comes in front of it and the row. -/
theorem OnCourse.acceptThroughFrom
    (hus : ∀ t ∈ us, t.kind ≠ .transition ∧ t.kind ≠ .commentOpen)
    (hfirst : first ≠ .whitespace ∧ first ≠ .newline) (hb : us.length < bound)
    (h : OnCourse options (f :: fs) waiting us c) :
    OnCourse options (f :: fs) (waiting ++ through (first :: kinds) us)
      (us.drop (through (first :: kinds) us).length)
      (acceptThroughFrom code first kinds bound c).2 := by
  induction bound generalizing us waiting c with
  | zero => exact absurd hb (Nat.not_lt_zero _)
  | succ bound ih =>
    -- the text up to its first candidate, if it has one
    obtain ⟨hsplit, hfront, hback⟩ := run_spec (·.kind != first) us
    generalize us.takeWhile (·.kind != first) = front at hsplit hfront
    generalize us.dropWhile (·.kind != first) = back at hsplit hback
    subst hsplit
    have hother : ∀ t ∈ front, t.kind ≠ first := fun t ht => by simpa using hfront t ht
    have hskip := h.skipTo code (fun t ht => ⟨hother t ht, hus t (List.mem_append_left _ ht)⟩)
      (fun t ht => by simpa using hback t ht) hfirst
    rw [Cursor.acceptThroughFrom, through_pass hother, List.length_append, List.drop_append,
      List.drop_of_length_le (Nat.le_add_right _ _), List.nil_append, Nat.add_sub_cancel_left,
      ← List.append_assoc]
    generalize c.skipTo code first = d at hskip ⊢
    cases back with
    | nil =>
      rw [if_pos (by simp [atEnd, hskip.ahead]), through, List.append_nil]
      exact hskip
    | cons t back =>
      rw [if_neg (by simp [atEnd, hskip.ahead]), through]
      have hsees : d.sees (first :: kinds) = startsWith (first :: kinds) (t :: back) := by
        rw [sees, startsWith, hskip.ahead]
      rw [hsees]
      split
      · next hstart =>
        have hlength : ((t :: back).take (kinds.length + 1)).length = kinds.length + 1 := by
          simpa [startsWith] using congrArg List.length (beq_iff_eq.mp hstart)
        have hline : OnCourse options (f :: fs) (waiting ++ front)
            ((t :: back).take (kinds.length + 1) ++ (t :: back).drop (kinds.length + 1)) d := by
          rwa [List.take_append_drop]
        have hread := hline.bumpN
        rw [List.length_cons, hlength]
        rw [hlength] at hread
        exact hread
      · have hgo := ih (fun u hu => hus u (by simp [hu]))
          (by simp only [List.length_append, List.length_cons] at hb; omega) hskip.bump
        rw [List.append_assoc, List.singleton_append] at hgo
        exact hgo

theorem OnCourse.acceptThrough (code : EmbeddedCode σ) (kinds : List Kind)
    (hus : ∀ t ∈ us, t.kind ≠ .transition ∧ t.kind ≠ .commentOpen)
    (hfirst : first ≠ .whitespace ∧ first ≠ .newline)
    (h : OnCourse options (f :: fs) waiting us c) :
    OnCourse options (f :: fs) (waiting ++ through (first :: kinds) us)
      (us.drop (through (first :: kinds) us).length) (c.acceptThrough code first kinds).2 :=
  h.acceptThroughFrom hus hfirst (Nat.lt_succ_of_le h.length_le_unclaimed)

/-- What is read on the opener of a section: the opener, and the text through its terminator. -/
theorem tag_section (code : EmbeddedCode σ) (tags : OpenTags) (h : Introduces opener terminator text)
    (ha : c.ahead = lex (opener ++ text)) : ∃ ts us first kinds,
      lex (opener ++ text) = ts ++ us ∧ kindsOf terminator = first :: kinds ∧
      textOf (ts ++ through (first :: kinds) us) =
        opener ++ textOf (through (first :: kinds) (lex text)) ∧
      c.tag code tags =
        ⟨((c.bumpN ts.length).acceptThrough code first kinds).2.flush .literal, tags,
          ((c.bumpN ts.length).acceptThrough code first kinds).1⟩ := by
  have hspecial (hnext : c.nth 1 ≠ .endOfInput) (hat : c.atSpecialTag = true) :
      c.tag code tags = ⟨(c.specialTag code).2, tags, (c.specialTag code).1⟩ := by
    rw [tag, if_neg hnext, if_pos hat]
  cases h with
  | instruction =>
    refine ⟨_, _, .questionMark, [.closeAngle], lex_instruction text, rfl, textOf_append _ _, ?_⟩
    rw [lex_instruction] at ha
    have hnext : c.nth 1 = .questionMark := by rw [nth, ha]; rfl
    rw [hspecial (by rw [hnext]; decide) (by rw [atSpecialTag, hnext]), specialTag, hnext]
    rfl
  | @cdata name _ hname =>
    refine ⟨_, _, .closeBracket, [.closeBracket, .closeAngle], lex_cdata hname text, rfl, by simp,
      ?_⟩
    rw [lex_cdata hname] at ha
    have hnext : c.nth 1 = .bang := by rw [nth, ha]; rfl
    have hplain : c.bangEscapeAt 1 = false := by
      simp [bangEscapeAt, nth, ha, Token.kindAt]
    have hahead : (c.bumpN 2).ahead = ⟨.openBracket, ['[']⟩ :: ⟨.text, name⟩ ::
        ⟨.openBracket, ['[']⟩ :: lex text := by rw [ahead_bumpN, ha]; rfl
    have hcdata : (c.bumpN 2).atCData = true := by
      simpa [atCData, at?, current, nth, nthText, Token.kindAt, textAt, hahead] using hname
    rw [hspecial (by rw [hnext]; decide) (by rw [atSpecialTag, hnext, hplain]; rfl), specialTag,
      if_pos hnext, bangTag, if_neg (by simp [ha, commentAhead, opensComment])]
    dsimp only
    rw [if_pos hcdata]
    rfl
  | @doctype name _ hname htext =>
    have hlex : lex ('<' :: '!' :: name ++ text) =
        [⟨.openAngle, ['<']⟩, ⟨.bang, ['!']⟩] ++ ([⟨.text, name⟩] ++ lex text) :=
      lex_doctype hname htext
    have hpass : through [.closeAngle] ([⟨.text, name⟩] ++ lex text) =
        [⟨.text, name⟩] ++ through [.closeAngle] (lex text) := through_pass (by simp) _
    refine ⟨_, _, .closeAngle, [], hlex, rfl, by rw [hpass]; simp, ?_⟩
    rw [hlex] at ha
    have hnext : c.nth 1 = .bang := by rw [nth, ha]; rfl
    have hplain : c.bangEscapeAt 1 = false := by
      have hword : c.nthText 2 = name := by rw [nthText, ha]; rfl
      simp only [bangEscapeAt, hword, hname]
      simp
    have hahead : (c.bumpN 2).ahead = ⟨.text, name⟩ :: lex text := by rw [ahead_bumpN, ha]; rfl
    have hcdata : ¬ (c.bumpN 2).atCData = true := by
      simp [atCData, at?, current, nth, Token.kindAt, hahead]
    rw [hspecial (by rw [hnext]; decide) (by rw [atSpecialTag, hnext, hplain]; rfl), specialTag,
      if_pos hnext, bangTag, if_neg (by simp [ha, commentAhead, opensComment])]
    dsimp only
    rw [if_neg hcdata]
    rfl

theorem OnCourse.eat (h : OnCourse options (f :: fs) waiting us c) (kind : Kind) :
    ∃ front back, us = front ++ back ∧
      OnCourse options (f :: fs) (waiting ++ front) back (c.eat kind).2 := by
  have hnone : ∃ front back, us = front ++ back ∧
      OnCourse options (f :: fs) (waiting ++ front) back c :=
    ⟨[], us, rfl, by rwa [List.append_nil]⟩
  unfold Cursor.eat
  split
  · cases us with
    | nil =>
      dsimp only
      rwa [bump_nil h.ahead]
    | cons t us => exact ⟨[t], us, rfl, h.bump⟩
  · exact hnone

/-- With no tag open, only spacing may be claimed behind the markup. -/
theorem OnCourse.endTags (h : OnCourse options (f :: fs) [] us c) (complete : Bool) :
    ∃ front back, us = front ++ back ∧
      OnCourse options ((f ++ flushTrees .literal front.reverse) :: fs) [] back
        (endTags ⟨c, [], complete⟩) := by
  obtain ⟨blanks, more, rfl, hblanks⟩ := h.eat .whitespace
  obtain ⟨ending, left, rfl, hending⟩ := hblanks.eat .newline
  have hclaim (claim : Prop) [Decidable claim] : ∃ front back,
      blanks ++ (ending ++ left) = front ++ back ∧
        OnCourse options ((f ++ flushTrees .literal front.reverse) :: fs) [] back
          ((if claim then ((c.eat .whitespace).2.eat .newline).2 else c).flush .literal) := by
    split
    · exact ⟨blanks ++ ending, left, (List.append_assoc ..).symm, by simpa using hending.flush⟩
    · exact ⟨[], blanks ++ (ending ++ left), rfl, h.flush⟩
  exact hclaim _

end Cursor

/-! ## The whole parse -/

namespace Parse

open Cursor Section

variable {σ : Type} {opener terminator text : List Char}

theorem nodeKindsOf_flushTrees {kind other : Kind} {ts : List Token}
    (h : other ∈ nodeKindsOf (flushTrees kind ts)) : other = kind := by
  unfold flushTrees at h
  split at h
  · cases h
  · simpa [nodeKindsOf, nodeKinds, -List.map_reverse] using h

/-- The unit is a section, and at most the spacing behind it. -/
theorem onCourse_section (options : Options) (code : EmbeddedCode σ) (host : σ) (source : String)
    (h : Introduces opener terminator text) (hsource : source.toList = opener ++ text)
    (hat : '@' ∉ source.toList) : ∃ ts spacing left,
      Token.textOf ts =
        opener ++ Token.textOf (Token.through (kindsOf terminator) (Token.lex text)) ∧
      OnCourse options
        [.node .literal (ts.map ofToken) :: flushTrees .literal spacing, []] [] left
        (blockEnd options code host source) := by
  have hstart := OnCourse.blockStart options host source
  have htokens : ∀ t ∈ Token.lex source.toList, t.kind ≠ .transition ∧ t.kind ≠ .commentOpen :=
    fun t ht => ⟨Token.kind_ne_of_mem_lex ht rfl (by simpa [Token.starters] using hat),
      Token.kind_ne_of_mem_lex ht rfl (by simpa [Token.starters] using hat)⟩
  rw [hsource] at hstart htokens
  have hangle : (blockStart options host source).current = .openAngle := by
    rw [Cursor.current, Cursor.nth, hstart.ahead]
    exact (Token.kindAt_lex_whole (d := '<') rfl (by decide)).mpr
      (h.openAngle.trans (List.prefix_append _ _))
  obtain ⟨t, rest, hline⟩ := List.exists_cons_of_ne_nil (ahead_ne_nil_of_nth hangle (by decide))
  have hkind : t.kind = .openAngle := (current_cons hline).symm.trans hangle
  rw [hstart.ahead] at hline
  rw [hline] at hstart
  have hfirst := (hstart.skipTo_at code .openAngle hkind (by decide)).flush
  generalize hfrom : ((blockStart options host source).skipTo code .openAngle).flush .literal = c
    at hfirst
  obtain ⟨ts, us, first, kinds, hlex, hkinds, htext, htag⟩ :=
    tag_section code [] h (hfirst.ahead.trans hline.symm)
  have hend : blockEnd options code host source = endTags (c.tag code []) := by
    rw [blockEnd_of_openAngle hangle, tagBlock, tagsFrom]
    dsimp only
    rw [hfrom, if_neg (by simp [atEnd, hfirst.ahead]), htag]
    rfl
  rw [← hline, hlex] at hfirst
  rw [hlex] at htokens
  have hread := (hfirst.bumpN.acceptThrough code kinds
    (fun t ht => htokens t (List.mem_append_right _ ht))
    (kindsOf_ne h.marks.2 (hkinds ▸ List.mem_cons_self ..))).flush
  obtain ⟨spacing, left, -, hunit⟩ :=
    hread.endTags ((c.bumpN ts.length).acceptThrough code first kinds).1
  rw [← htag, ← hend] at hunit
  have hne : ts ++ Token.through (first :: kinds) us ≠ [] := by
    intro hnil
    rw [hnil] at htext
    obtain ⟨rest, hopener⟩ := h.openAngle
    simp [← hopener] at htext
  simp only [List.nil_append, List.reverse_nil, flushTrees_nil, List.append_nil,
    flushTrees_reverse hne] at hunit
  exact ⟨_, spacing.reverse, left, by rw [hkinds, htext], hunit⟩

/-- A source without `@` that begins with the opener of a section begins with one literal, which ends
with the first terminator behind the opener or with the source. No tag is read. -/
theorem parseBlock_section (options : Options) (code : EmbeddedCode σ) (host : σ) (source : String)
    (h : Introduces opener terminator text) (hsource : source.toList = opener ++ text)
    (hat : '@' ∉ source.toList) : ∃ p ts used spacing rest,
      parseBlock options code host source = .ok p ∧
      Text.Through (EndsBehind terminator) terminator text used ∧
      Token.textOf ts = opener ++ used ∧
      p.tree = .node .root
        (.node .markupBlock (.node .literal (ts.map ofToken) :: spacing) :: rest) ∧
      .tagBlock ∉ p.tree.nodeKinds := by
  obtain ⟨ts, spacing, left, htext, hunit⟩ :=
    onCourse_section options code host source h hsource hat
  obtain ⟨p, hp, -, htree⟩ := parseBlock_leaving hunit
  obtain ⟨hne, hmarks⟩ := h.marks
  refine ⟨p, ts, _, _, _, hp, through_lex hne hmarks text, htext, htree, fun htag => ?_⟩
  rw [htree] at htag
  simp only [nodeKinds, nodeKindsOf, nodeKindsOf_map_ofToken, List.mem_cons, List.mem_append,
    List.not_mem_nil, or_false, reduceCtorEq, false_or] at htag
  rcases htag with hspacing | hrest
  · exact absurd (nodeKindsOf_flushTrees hspacing) (by decide)
  · exact absurd (nodeKindsOf_flushTrees hrest) (by decide)

/-- A terminator behind a part of itself, with markup in front of it and behind it. -/
theorem parseBlock_section_overlap :
    Introduces "<![CDATA[".toList "]]>".toList "<b>]]]> </b>".toList ∧
      ∃ p ts used spacing rest, parseBlock {} .implicit () "<![CDATA[<b>]]]> </b>" = .ok p ∧
        Text.Through (EndsBehind "]]>".toList) "]]>".toList "<b>]]]> </b>".toList used ∧
        Token.textOf ts = "<![CDATA[".toList ++ used ∧
        p.tree = .node .root
          (.node .markupBlock (.node .literal (ts.map ofToken) :: spacing) :: rest) ∧
        .tagBlock ∉ p.tree.nodeKinds := by
  have hname : Text.sameIgnoringCase "CDATA".toList "cdata".toList = true := by decide
  have hopens : Introduces "<![CDATA[".toList "]]>".toList "<b>]]]> </b>".toList := .cdata hname
  exact ⟨hopens, parseBlock_section {} .implicit () _ hopens rfl (by decide)⟩

end Parse

end TemplateMarkup
