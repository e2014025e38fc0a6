import TemplateMarkup.Proofs.Outcome
import TemplateMarkup.Proofs.Printed

/-! # Parsing undoes printing

The walk over the tags reads one element after the other. An element between two
tags leaves its start tag open while its children are read, and the text behind
the last child is read with its end tag. -/

namespace TemplateMarkup

open Cursor

/-! ## Names in another case -/

namespace Options

variable {a b : List Char}

theorem isVoidElement_congr (o : Options) (h : Text.sameIgnoringCase a b = true) :
    o.isVoidElement a = o.isVoidElement b := by
  simp only [isVoidElement, Text.sameIgnoringCase, Text.sameIgnoringCase_iff.mp h]

theorem isTextTag_congr (o : Options) (h : Text.sameIgnoringCase a b = true) :
    o.isTextTag a = o.isTextTag b := by
  simp only [isTextTag, Text.sameIgnoringCase, Text.sameIgnoringCase_iff.mp h]

end Options

namespace Markup

variable {σ : Type} {code : EmbeddedCode σ} {c d : Cursor σ} {tags : OpenTags} {designTime : Bool}
  {pre post rest : List Token} {name : List Char} {attributes : List (List Char × List Char)}

/-! ## What follows a void tag -/

/-- Behind the spacing in front of the `n`-th token ahead there is no end tag of the name. -/
def NoEndTagAt (c : Cursor σ) (name : List Char) (n : Nat) : Prop :=
  ¬ (c.nth (n + c.spacing n) = .openAngle ∧ c.nth (n + c.spacing n + 1) = .slash ∧
    Text.sameIgnoringCase (c.tagNameAt (n + c.spacing n + 2)) name = true)

/-- Tokens behind which no end tag of a void element comes. -/
def Unvoided (σ : Type) (rest : List Token) : Prop :=
  ∀ (c : Cursor σ) (name : List Char) (n : Nat), ({} : Options).isVoidElement name = true →
    c.ahead.drop n = rest → NoEndTagAt c name n

theorem voidEndTag_eq (h : NoEndTagAt c name 0) : c.voidEndTag name = c := by
  rw [NoEndTagAt, Nat.zero_add] at h
  rw [voidEndTag]
  dsimp only
  rw [if_neg h]

theorem spacing_eq_zero {n : Nat} {t : Token} (h : c.ahead.drop n = t :: rest)
    (ht : t.kind.isTrivia = false) : c.spacing n = 0 := by
  simp [spacing, runLength, h, ht]

theorem noEndTagAt_of_next {n : Nat} {t u : Token} (h : c.ahead.drop n = t :: u :: rest)
    (ht : t.kind.isTrivia = false) (hu : u.kind ≠ .slash) : NoEndTagAt c name n := by
  rintro ⟨-, hslash, -⟩
  rw [spacing_eq_zero h ht, Nat.add_zero, nth_eq (drop_succ h)] at hslash
  exact hu hslash

/-- Text does not hide an end tag. -/
theorem Unvoided.append (hpre : ∀ t ∈ pre, t.kind ≠ .openAngle) (h : Unvoided σ rest) :
    Unvoided σ (pre ++ rest) := by
  induction pre with
  | nil => exact h
  | cons t pre ih =>
    have hrest := ih fun u hu => hpre u (List.mem_cons_of_mem t hu)
    intro c name n hvoid hdrop
    cases ht : t.kind.isTrivia with
    | false =>
      rintro ⟨hangle, -, -⟩
      rw [spacing_eq_zero hdrop ht, Nat.add_zero, nth_eq hdrop] at hangle
      exact hpre t (List.mem_cons_self ..) hangle
    | true =>
      have hnext := hrest c name (n + 1) hvoid (drop_succ hdrop)
      have hspacing : n + c.spacing n = n + 1 + c.spacing (n + 1) := by
        have hone : c.spacing n = c.spacing (n + 1) + 1 := by
          have htail : c.ahead.drop (n + 1) = pre ++ rest := drop_succ hdrop
          simp only [spacing, runLength, hdrop, htail, List.cons_append]
          simp [ht]
        omega
      rw [NoEndTagAt, hspacing]
      exact hnext

theorem Named.first (hn : Named name) :
    ∃ t ts, Token.lex name = t :: ts ∧ t.kind = .text := by
  have hne : Token.lex name ≠ [] := by
    intro h
    have htext := Token.textOf_lex name
    rw [h] at htext
    exact hn.ne_nil htext.symm
  obtain ⟨t, ts, hlex⟩ := List.exists_cons_of_ne_nil hne
  exact ⟨t, ts, hlex, hn.text t (by rw [hlex]; exact List.mem_cons_self ..)⟩

theorem Named.written (hn : Named name) : Written (Token.lex name) name ((Token.lex name).map .leaf) := by
  obtain ⟨t, ts, hlex, -⟩ := hn.first
  have hw := Written.plain (by rw [hlex]; exact List.cons_ne_nil _ _) hn.text
  rwa [Token.textOf_lex] at hw

theorem unvoided_end (hn : Named name) (hvoid : ({} : Options).isVoidElement name = false) :
    Unvoided σ (endTokens name ++ rest) := by
  rintro c other n hother hdrop ⟨-, -, hsame⟩
  have hdrop' : c.ahead.drop n = lt :: slash :: (Token.lex name ++ gt :: rest) := by
    rw [hdrop]
    simp [endTokens]
  have hname : c.tagNameAt (n + 2) = name := by
    refine hn.written.tagNameAt_eq (drop_succ (drop_succ hdrop')) ?_
    rintro t ⟨⟩
    decide
  rw [spacing_eq_zero hdrop' rfl, Nat.add_zero, hname] at hsame
  rw [Options.isVoidElement_congr _ hsame, hother] at hvoid
  cases hvoid

theorem startTokens_eq (hn : Named name) (attributes : List (List Char × List Char)) :
    ∃ t ts, startTokens name attributes = lt :: t :: ts ∧ t.kind = .text := by
  obtain ⟨t, ts, hlex, ht⟩ := hn.first
  exact ⟨t, _, by rw [startTokens, hlex]; rfl, ht⟩

theorem unvoided_start (hn : Named name) : Unvoided σ (startTokens name attributes ++ rest) := by
  obtain ⟨t, ts, htokens, ht⟩ := startTokens_eq hn attributes
  intro c other n hother hdrop
  have hnext : c.ahead.drop n = lt :: t :: (ts ++ rest) := by
    rw [hdrop, htokens]
    rfl
  exact noEndTagAt_of_next hnext rfl (by rw [ht]; decide)

/-- The tokens of a text are passed by a scan for a tag. -/
def Skipped (ts : List Token) : Prop := ∀ t ∈ ts, Passes .openAngle t ∧ t.text ≠ []

theorem skipped_nil : Skipped [] := by
  intro t ht
  cases ht

theorem skipped_text {content : List Char} (hangle : '<' ∉ content) (hat : '@' ∉ content) :
    Skipped (Token.lex content) := fun t ht =>
  ⟨passes_lex rfl (by simpa [Token.starters] using hangle) hat t ht, Token.text_ne_nil_of_mem_lex ht⟩

theorem unvoided_tokensOf {ms : List Markup} (hms : WellFormedOf ms) (h : Unvoided σ rest) :
    Unvoided σ (tokensOf ms ++ rest) := by
  induction ms with
  | nil => exact h
  | cons m ms ih =>
    obtain ⟨hm, -, hms⟩ := hms
    rw [tokensOf, List.append_assoc]
    cases m with
    | text content =>
      have hskip := skipped_text hm.2.1 hm.2.2
      exact (ih hms).append fun t ht => (hskip t ht).1.1
    | paired =>
      rw [tokens, List.append_assoc]
      exact unvoided_start hm.1
    | selfClosed =>
      rw [tokens, List.append_assoc]
      exact unvoided_start hm.1
    | void =>
      rw [tokens, List.append_assoc]
      exact unvoided_start hm.1

/-! ## Reading an element -/

theorem takes_attributes (code : EmbeddedCode σ) (has : ∀ a ∈ attributes, AttributeFits a)
    (hh : c.held = []) (hflag : c.context.ephemeralLineEnding = false)
    (ha : c.ahead = (attributes.flatMap fun a => (writtenAttribute a).tokens) ++ rest)
    (hend : AtTagEnd rest) :
    Takes (attributes.flatMap fun a => (writtenAttribute a).tokens)
      (attributes.flatMap fun a => (writtenAttribute a).pieces) c (c.attributes code).2 := by
  have hfits : ∀ w ∈ attributes.map writtenAttribute, w.Fits := by
    intro w hw
    obtain ⟨a, hmem, rfl⟩ := List.mem_map.mp hw
    exact (has a hmem).written
  have hne : ∀ t ∈ (attributes.map writtenAttribute).flatMap WrittenAttribute.tokens, t.text ≠ [] := by
    intro t ht
    obtain ⟨w, hw, ht⟩ := List.mem_flatMap.mp ht
    obtain ⟨a, -, rfl⟩ := List.mem_map.mp hw
    simp only [WrittenAttribute.tokens, WrittenAttribute.body, writtenAttribute, List.mem_cons,
      List.mem_append, List.not_mem_nil, or_false] at ht
    rcases ht with rfl | (ht | rfl | rfl | ht) | rfl
    · exact List.cons_ne_nil _ _
    · exact Token.text_ne_nil_of_mem_lex ht
    · exact List.cons_ne_nil _ _
    · exact List.cons_ne_nil _ _
    · exact Token.text_ne_nil_of_mem_lex ht
    · exact List.cons_ne_nil _ _
  have hline : c.ahead = (attributes.map writtenAttribute).flatMap WrittenAttribute.tokens ++ rest := by
    rw [ha, List.flatMap_map]
  have htakes := Takes.attributes code hfits hh hflag hne hline hend
  rwa [List.flatMap_map, List.flatMap_map] at htakes

/-- The walk reads the text in front of an element and its start tag up to the attributes. -/
theorem walk_start (code : EmbeddedCode σ) (tags : OpenTags) (hn : Named name)
    (has : ∀ a ∈ attributes, AttributeFits a) (hh : c.held = [])
    (hcontext : c.context = { options := { designTime } }) (hskip : Skipped pre)
    (ha : c.ahead = pre ++ (startTokens name attributes ++ rest)) (hend : AtTagEnd rest)
    (hplace : tags ≠ [] ∨ ({} : Options).isTextTag name = false) :
    ∃ d e, Takes pre (pre.map .leaf) c d ∧
      Takes (lt :: Token.lex name) (.leaf lt :: (Token.lex name).map .leaf) d.start.2 e ∧
      Takes (attributes.flatMap fun a => (writtenAttribute a).tokens)
        (attributes.flatMap fun a => (writtenAttribute a).pieces) e (e.attributes code).2 ∧
      e.ahead = (attributes.flatMap fun a => (writtenAttribute a).tokens) ++ rest ∧
      e.context = { options := { designTime } } ∧
      ∀ bound complete, tagsFrom code (bound + 1) ⟨c, tags, complete⟩ =
        resume code bound (e.restOfStartTag code tags d.start.1 name d.offset) := by
  have hline : c.ahead = pre ++ lt :: (Token.lex name ++
      ((attributes.flatMap fun a => (writtenAttribute a).tokens) ++ rest)) := by
    simp [ha, startTokens]
  obtain ⟨d, hpre, -, hwalk⟩ := tagsFrom_succ code tags hh (by rw [hcontext])
    (fun t ht => (hskip t ht).2) (fun t ht => (hskip t ht).1) hline rfl
  have hd : d.context = { options := { designTime } } := hpre.context_eq.trans hcontext
  have hstop : ∀ t ∈ ((attributes.flatMap fun a => (writtenAttribute a).tokens) ++ rest).head?,
      t.kind ≠ .text := by
    cases attributes with
    | nil =>
      cases rest with
      | nil =>
        intro t ht
        cases ht
      | cons t rest =>
        rintro u ⟨⟩ hu
        rcases hend with hkind | ⟨hkind, -⟩ <;> exact absurd (hu.symm.trans hkind) (by decide)
    | cons a as =>
      rintro t ⟨⟩
      exact (by decide : Kind.whitespace ≠ Kind.text)
  obtain ⟨htag, hname⟩ := tag_start code tags hn.written hpre.held (hpre.ahead_eq hline) hstop
    (by rw [hd]; exact hplace)
  generalize d.start.2.bump.bangEscape.eatName = e at htag hname
  have hnext := hname.ahead_eq ((ahead_start d).trans (hpre.ahead_eq hline))
  have he : e.context = { options := { designTime } } := (hname.context_eq.trans (context_flush d _)).trans hd
  refine ⟨d, e, hpre, hname, takes_attributes code has hname.held (by rw [he]) hnext hend, hnext, he,
    fun bound complete => ?_⟩
  rw [hwalk, htag]

/-- The walk reads the text in front of an end tag and the end tag of the innermost element. -/
theorem walk_end (code : EmbeddedCode σ) (t : OpenTag) (tags : OpenTags) (hn : Named name)
    (hh : c.held = []) (hcontext : c.context = { options := { designTime } }) (hskip : Skipped post)
    (ha : c.ahead = post ++ (endTokens name ++ rest))
    (hsame : Text.sameIgnoringCase t.name name = true)
    (hplace : tags ≠ [] ∨ ({} : Options).isTextTag name = false) :
    ∃ d, Takes (post ++ endTokens name) (post.map .leaf ++ [.part .tagBlock (endPieces name)]) c d ∧
      ∀ bound complete, tagsFrom code (bound + 1) ⟨c, t :: tags, complete⟩ =
        resume code bound ⟨t.close d, tags, true⟩ := by
  have hline : c.ahead = post ++ lt :: (slash :: Token.lex name ++ gt :: rest) := by
    simp [ha, endTokens]
  obtain ⟨d, hpost, -, hwalk⟩ := tagsFrom_succ code (t :: tags) hh (by rw [hcontext])
    (fun t ht => (hskip t ht).2) (fun t ht => (hskip t ht).1) hline rfl
  have hd : d.context = { options := { designTime } } := hpost.context_eq.trans hcontext
  have hahead := hpost.ahead_eq hline
  have htag := tag_matching code t tags hn.written hpost.held hahead rfl rfl hsame (by rwa [hd])
  have hall := hpost.trans (Takes.endTagBlock hn.written hpost.held hahead rfl name).2
  refine ⟨(d.endTagBlock name).2, hall, fun bound complete => ?_⟩
  rw [hwalk, htag]

/-! ## Reading markup -/

mutual

/-- The number of tags. -/
def tagCount : Markup → Nat
  | text _ => 0
  | paired _ _ _ children => tagCountOf children + 2
  | selfClosed .. | void .. => 1

def tagCountOf : List Markup → Nat
  | [] => 0
  | m :: ms => m.tagCount + tagCountOf ms

end

/-- In as many rounds as there are tags the walk takes the text in front of an element and the
element, whatever tags are open around it. -/
def Walks (code : EmbeddedCode σ) (m : Markup) : Prop :=
  ∀ {c : Cursor σ} {tags : OpenTags} {designTime : Bool} {pre rest : List Token}, c.held = [] →
    c.context = { options := { designTime } } → (tags ≠ [] ∨ m.IsRoot) → Skipped pre →
    c.ahead = pre ++ (m.tokens ++ rest) → (tags ≠ [] → Unvoided σ rest) →
    ∃ d, Takes (pre ++ m.tokens) (pre.map .leaf ++ m.pieces) c d ∧ Finishes .tagBlock c d ∧
      ∀ bound complete, tagsFrom code (m.tagCount + bound) ⟨c, tags, complete⟩ = resume code bound ⟨d, tags, true⟩

theorem walks_selfClosed (code : EmbeddedCode σ) (hn : Named name)
    (has : ∀ a ∈ attributes, AttributeFits a) : Walks code (.selfClosed name attributes) := by
  intro c tags designTime pre rest hh hcontext hplace hskip ha hfollow
  have hline : c.ahead = pre ++ (startTokens name attributes ++ slash :: gt :: rest) := by
    simp [ha, tokens]
  obtain ⟨d, e, hpre, hname, hattributes, hnext, -, hwalk⟩ := walk_start code tags hn has hh hcontext
    hskip hline (.inr ⟨rfl, rfl⟩) hplace
  obtain ⟨f, hrest, hclose⟩ := restOfStartTag_selfClosed tags d.start.1 name d.offset hattributes hnext
    rfl rfl
  have hall := hpre.trans ((hname.trans hclose).node .tagBlock (by decide))
  have hlast := hpre.finishes ((hname.trans hclose).finishes_node .tagBlock)
  refine ⟨f.complete d.start.1 .tagBlock, ?_, hlast, fun bound complete => ?_⟩
  · rw [pieces, tokens, startPieces, startTokens, List.cons_append, List.append_assoc,
      List.cons_append, List.append_assoc]
    exact hall
  · rw [tagCount, Nat.add_comm, hwalk, hrest]

theorem walks_void (code : EmbeddedCode σ) (hn : Named name)
    (hvoid : ({} : Options).isVoidElement name = true) (has : ∀ a ∈ attributes, AttributeFits a) :
    Walks code (.void name attributes) := by
  intro c tags designTime pre rest hh hcontext hplace hskip ha hfollow
  have hopen : tags ≠ [] := hplace.resolve_right id
  have hline : c.ahead = pre ++ (startTokens name attributes ++ gt :: rest) := by
    simp [ha, tokens]
  obtain ⟨d, e, hpre, hname, hattributes, hnext, he, hwalk⟩ := walk_start code tags hn has hh hcontext
    hskip hline (.inl rfl) (.inl hopen)
  obtain ⟨f, hrest, hclose⟩ := restOfStartTag_void tags d.start.1 d.offset hattributes hnext rfl
    (by rw [he]; exact hvoid) (fun f hf => voidEndTag_eq (hfollow hopen f name 0 hvoid hf))
  have hall := hpre.trans ((hname.trans hclose).node .tagBlock (by decide))
  have hlast := hpre.finishes ((hname.trans hclose).finishes_node .tagBlock)
  refine ⟨f.complete d.start.1 .tagBlock, ?_, hlast, fun bound complete => ?_⟩
  · rw [pieces, tokens, startPieces, startTokens, List.cons_append, List.append_assoc,
      List.cons_append, List.append_assoc]
    exact hall
  · rw [tagCount, Nat.add_comm, hwalk, hrest]

/-- The walk takes neighbours but for the text behind the last element. -/
def WalksOf (code : EmbeddedCode σ) (ms : List Markup) : Prop :=
  ∀ {c : Cursor σ} {tags : OpenTags} {designTime : Bool} {pre rest : List Token}, c.held = [] →
    c.context = { options := { designTime } } → tags ≠ [] → Skipped pre →
    c.ahead = pre ++ (tokensOf ms ++ rest) → Unvoided σ rest →
    ∃ used post ps d, pre ++ tokensOf ms = used ++ post ∧
      pre.map .leaf ++ piecesOf ms = ps ++ post.map .leaf ∧ Skipped post ∧ Takes used ps c d ∧
      ∀ bound complete, ∃ complete', tagsFrom code (tagCountOf ms + bound) ⟨c, tags, complete⟩ =
        tagsFrom code bound ⟨d, tags, complete'⟩

theorem walks_paired (code : EmbeddedCode σ) {endName : List Char} {children : List Markup}
    (hn : Named name) (hsame : Text.sameIgnoringCase endName name = true)
    (hvoid : ({} : Options).isVoidElement name = false)
    (hscript : ({} : Options).isScriptTag name = false)
    (has : ∀ a ∈ attributes, AttributeFits a) (hchildren : WalksOf code children) :
    Walks code (.paired name endName attributes children) := by
  intro c tags designTime pre rest hh hcontext hplace hskip ha hfollow
  have hend := hn.of_same hsame
  have hline : c.ahead = pre ++ (startTokens name attributes ++
      gt :: (tokensOf children ++ (endTokens endName ++ rest))) := by
    simp [ha, tokens]
  obtain ⟨d, e, hpre, hname, hattributes, hnext, he, hwalk⟩ := walk_start code tags hn has hh hcontext
    hskip hline (.inl rfl) hplace
  obtain ⟨hrest, hclose⟩ := restOfStartTag_open tags d.start.1 d.offset hattributes hnext rfl
    (by rw [he]; exact hvoid) (by rw [he]; exact hscript)
  generalize (e.attributes code).2.bump.flush .literal = f at hrest hclose
  have hf : f.ahead = [] ++ (tokensOf children ++ (endTokens endName ++ rest)) := by
    refine hclose.ahead_eq ?_
    rw [hnext, List.append_assoc]
    rfl
  have hfc : f.context = { options := { designTime } } := hclose.context_eq.trans he
  have hendVoid : ({} : Options).isVoidElement endName = false :=
    (Options.isVoidElement_congr _ hsame).trans hvoid
  -- the children are read while the start tag is open
  obtain ⟨used, post, ps, g, htokens, hpieces, hpost, htakes, hwalks⟩ := hchildren hclose.held hfc
    (List.cons_ne_nil ⟨name, d.offset, some d.start.1⟩ tags) skipped_nil hf (unvoided_end hend hendVoid)
  rw [List.nil_append] at htokens
  rw [List.map_nil, List.nil_append] at hpieces
  have hg : g.ahead = post ++ (endTokens endName ++ rest) := by
    refine htakes.ahead_eq ?_
    rw [hf, List.nil_append, htokens, List.append_assoc]
  have hgc : g.context = { options := { designTime } } := htakes.context_eq.trans hfc
  have hplace' : tags ≠ [] ∨ ({} : Options).isTextTag endName = false := by
    rcases hplace with hne | htext
    · exact .inl hne
    · exact .inr ((Options.isTextTag_congr _ hsame).trans htext)
  have hmatch : Text.sameIgnoringCase name endName = true := by
    rwa [Text.sameIgnoringCase_comm]
  obtain ⟨k, hlast, hclosing⟩ := walk_end code ⟨name, d.offset, some d.start.1⟩ tags hend htakes.held
    hgc hpost hg hmatch hplace'
  have hinner := ((hname.trans hclose).trans htakes).trans hlast
  have hall := hpre.trans (hinner.node .tagBlock (by decide))
  refine ⟨k.complete d.start.1 .tagBlock, ?_, hpre.finishes (hinner.finishes_node .tagBlock),
    fun bound complete => ?_⟩
  · have hused : startTokens name attributes ++ gt :: (tokensOf children ++ endTokens endName) =
        (lt :: Token.lex name) ++ ((attributes.flatMap fun a => (writtenAttribute a).tokens) ++ [gt]) ++
          used ++ (post ++ endTokens endName) := by
      rw [htokens]
      simp [startTokens]
    have hshown : startPieces name attributes ++
        .leaf gt :: (piecesOf children ++ [.part .tagBlock (endPieces endName)]) =
          (.leaf lt :: (Token.lex name).map .leaf) ++
            ((attributes.flatMap fun a => (writtenAttribute a).pieces) ++ [.leaf gt]) ++ ps ++
              (post.map .leaf ++ [.part .tagBlock (endPieces endName)]) := by
      rw [hpieces]
      simp [startPieces]
    rw [pieces, tokens, hused, hshown]
    exact hall
  · obtain ⟨complete', hstep⟩ := hwalks (bound + 1) true
    have hrounds : tagCount (.paired name endName attributes children) + bound =
        tagCountOf children + (bound + 1) + 1 := by
      rw [tagCount]
      omega
    rw [hrounds, hwalk, hrest, resume_of_ne_nil _ _ (List.cons_ne_nil _ _), hstep, hclosing]
    rfl

theorem walksOf_nil (code : EmbeddedCode σ) : WalksOf code [] := by
  intro c tags designTime pre rest hh hcontext hopen hskip ha hfollow
  refine ⟨[], pre, [], c, by simp [tokensOf], by simp [piecesOf], hskip, Takes.refl hh,
    fun bound complete => ⟨complete, ?_⟩⟩
  rw [tagCountOf, Nat.zero_add]

/-- A text waits for the tag behind it. -/
theorem walksOf_text (code : EmbeddedCode σ) {content : List Char} {ms : List Markup}
    (hskips : Skipped (Token.lex content)) (hms : WalksOf code ms) :
    WalksOf code (.text content :: ms) := by
  intro c tags designTime pre rest hh hcontext hopen hskip ha hfollow
  have hboth : Skipped (pre ++ Token.lex content) := by
    intro t ht
    rcases List.mem_append.mp ht with ht | ht
    · exact hskip t ht
    · exact hskips t ht
  have hline : c.ahead = (pre ++ Token.lex content) ++ (tokensOf ms ++ rest) := by
    rw [ha, tokensOf, tokens]
    simp
  obtain ⟨used, post, ps, d, htokens, hpieces, hpost, htakes, hwalks⟩ :=
    hms hh hcontext hopen hboth hline hfollow
  refine ⟨used, post, ps, d, ?_, ?_, hpost, htakes, fun bound complete => ?_⟩
  · rw [← htokens, tokensOf, tokens, List.append_assoc]
  · rw [← hpieces, piecesOf, pieces, List.map_append, List.append_assoc]
  · rw [tagCountOf, tagCount, Nat.zero_add]
    exact hwalks bound complete

theorem walksOf_element (code : EmbeddedCode σ) {m : Markup} {ms : List Markup}
    (hm : Walks code m) (hms : WalksOf code ms) (hwell : WellFormedOf ms) :
    WalksOf code (m :: ms) := by
  intro c tags designTime pre rest hh hcontext hopen hskip ha hfollow
  have hline : c.ahead = pre ++ (m.tokens ++ (tokensOf ms ++ rest)) := by
    rw [ha, tokensOf]
    simp
  obtain ⟨d, hfirst, -, hwalk⟩ := hm hh hcontext (.inl hopen) hskip hline
    fun _ => unvoided_tokensOf hwell hfollow
  have hd : d.ahead = [] ++ (tokensOf ms ++ rest) := by
    refine hfirst.ahead_eq ?_
    rw [hline]
    simp
  obtain ⟨used, post, ps, e, htokens, hpieces, hpost, htakes, hwalks⟩ := hms hfirst.held
    (hfirst.context_eq.trans hcontext) hopen skipped_nil hd hfollow
  rw [List.nil_append] at htokens
  rw [List.map_nil, List.nil_append] at hpieces
  refine ⟨_, post, _, e, ?_, ?_, hpost, hfirst.trans htakes, fun bound complete => ?_⟩
  · rw [tokensOf, htokens]
    simp
  · rw [piecesOf, hpieces]
    simp
  · obtain ⟨complete', hstep⟩ := hwalks bound true
    refine ⟨complete', ?_⟩
    rw [tagCountOf, Nat.add_assoc, hwalk, resume_of_ne_nil _ _ hopen, hstep]

mutual

theorem walks (code : EmbeddedCode σ) : (m : Markup) → m.WellFormed → m.isText = false →
    Walks code m
  | text _, _, h => nomatch h
  | paired _ _ _ children, h, _ => by
    obtain ⟨hn, hsame, hvoid, hscript, has, hchildren⟩ := h
    exact walks_paired code hn hsame hvoid hscript has (walksOf code children hchildren)
  | selfClosed _ _, h, _ => walks_selfClosed code h.1 h.2
  | void _ _, h, _ => walks_void code h.1 h.2.1 h.2.2

theorem walksOf (code : EmbeddedCode σ) : (ms : List Markup) → WellFormedOf ms → WalksOf code ms
  | [], _ => walksOf_nil code
  | .text _ :: ms, h => walksOf_text code (skipped_text h.1.2.1 h.1.2.2) (walksOf code ms h.2.2)
  | .paired name endName attributes children :: ms, h =>
    walksOf_element code (walks code (.paired name endName attributes children) h.1 rfl)
      (walksOf code ms h.2.2) h.2.2
  | .selfClosed name attributes :: ms, h =>
    walksOf_element code (walks code (.selfClosed name attributes) h.1 rfl) (walksOf code ms h.2.2)
      h.2.2
  | .void name attributes :: ms, h =>
    walksOf_element code (walks code (.void name attributes) h.1 rfl) (walksOf code ms h.2.2) h.2.2

end

/-! ## The whole parse -/

mutual

theorem tagCount_le : (m : Markup) → m.tagCount ≤ m.tokens.length
  | text _ => Nat.zero_le _
  | paired name endName attributes children => by
    have hchildren := tagCountOf_le children
    simp only [tagCount, tokens, startTokens, endTokens, List.length_append, List.length_cons]
    omega
  | selfClosed _ _ => Nat.le_add_left 1 _
  | void _ _ => Nat.le_add_left 1 _

theorem tagCountOf_le : (ms : List Markup) → tagCountOf ms ≤ (tokensOf ms).length
  | [] => Nat.le_refl _
  | m :: ms => by
    have hm := tagCount_le m
    have hms := tagCountOf_le ms
    rw [tagCountOf, tokensOf, List.length_append]
    omega

end

theorem IsRoot.not_text {m : Markup} (h : m.IsRoot) : m.isText = false := by
  cases m with
  | text | void => cases h
  | paired | selfClosed => rfl

theorem head_tokens {m : Markup} (h : m.IsRoot) : ∃ ts, m.tokens = lt :: ts := by
  cases m with
  | text | void => cases h
  | paired | selfClosed => exact ⟨_, rfl⟩

/-- The walk over an outermost element ends with it, whatever follows. -/
theorem takes_tagBlock (code : EmbeddedCode σ) {m : Markup} (hm : m.WellFormed) (hroot : m.IsRoot)
    (hh : c.held = []) (hcontext : c.context = { options := { designTime } })
    (ha : c.ahead = m.tokens ++ rest) (hne : ∀ t ∈ m.tokens, t.text ≠ []) :
    ∃ d, Takes m.tokens m.pieces c d ∧ Finishes .tagBlock c d ∧
      c.tagBlock code = endTags ⟨d, [], true⟩ := by
  have hline : c.ahead = [] ++ (m.tokens ++ rest) := ha
  have hplace : ([] : OpenTags) ≠ [] ∨ m.IsRoot := .inr hroot
  obtain ⟨d, htakes, hlast, hwalk⟩ := walks code m hm hroot.not_text hh hcontext hplace skipped_nil
    hline fun h => absurd rfl h
  have hcount : m.tagCount ≤ c.unclaimed := Nat.le_trans (tagCount_le m) (length_le_unclaimed ha hne)
  obtain ⟨bound, hbound⟩ : ∃ bound, c.unclaimed + 1 = m.tagCount + bound :=
    Nat.exists_eq_add_of_le (Nat.le_succ_of_le hcount)
  refine ⟨d, htakes, hlast, ?_⟩
  rw [tagBlock, hbound, hwalk]
  rfl

/-- The unit is the printed element. -/
theorem takes_unitEnd {m : Markup} (hm : m.WellFormed) (hroot : m.IsRoot) {source : String}
    (htext : source.toList = m.print) :
    Takes m.tokens m.pieces (Parse.unitStart source) (Parse.unitEnd source) ∧
      (Parse.unitEnd source).ahead = [] := by
  have hahead : (Parse.unitStart source).ahead = m.tokens ++ [] := by
    have hlex := lex_print m hm hroot.not_text []
    rw [List.append_nil] at hlex
    rw [Parse.ahead_unitStart, htext, hlex]
    rfl
  have hne : ∀ t ∈ m.tokens, t.text ≠ [] := by
    intro t ht
    rw [← List.append_nil m.tokens, ← hahead] at ht
    exact Token.text_ne_nil_of_mem_lex ht
  obtain ⟨ts, hfirst⟩ := head_tokens hroot
  have hcurrent : (Parse.unitStart source).current = .openAngle := by
    rw [hfirst] at hahead
    exact current_cons hahead
  have hcontext : (Parse.unitStart source).context = { options := { designTime := false } } := rfl
  obtain ⟨d, htakes, -, hwalk⟩ := takes_tagBlock .implicit hm hroot rfl hcontext hahead hne
  have hd : d.ahead = [] := htakes.ahead_eq hahead
  have hend : Parse.unitEnd source = d.flush .literal := by
    have hkind : Token.kindAt d.ahead 0 = .endOfInput := by
      rw [hd]
      rfl
    rw [Parse.unitEnd_of_openAngle hcurrent, hwalk]
    exact endTags_eq (by rw [hkind]; decide) (by rw [hkind]; decide)
  rw [hend]
  exact ⟨htakes.flush_literal, (ahead_flush d _).trans hd⟩

end Markup

/-- The print of an element is parsed without a complaint and to the end, and its tag blocks are
where the element says they are. -/
theorem parse_print (m : Markup) (hm : m.WellFormed) (hroot : m.IsRoot) :
    ∃ p, parse (String.ofList m.print) = .ok p ∧ p.diagnostics = [] ∧ p.unparsedText? = none ∧
      p.tree.tagSpans 0 = m.spans 0 := by
  generalize hsource : String.ofList m.print = source
  have htext : source.toList = m.print := by rw [← hsource, String.toList_ofList]
  obtain ⟨htakes, hahead⟩ := Markup.takes_unitEnd hm hroot htext
  have hv := htakes.adds.view (Parse.views_unitStart source)
  have hrest : (Parse.unitEnd source).rest = [] := by
    rw [Cursor.rest, htakes.held, hahead]
    rfl
  have hnone : (Parse.unitEnd source).diagnostics = #[] := htakes.adds.diagnostics
  obtain ⟨p, hp, -, hdiagnostics, htree, hunparsed⟩ := Parse.tagSpans_of_views hv
  refine ⟨p, hp, ?_, ?_, ?_⟩
  · rw [hdiagnostics, hnone]
  · rw [hunparsed, if_pos hrest]
  · rw [htree, List.nil_append, Markup.tagSpansOf_pieces]

/-- `<my-p class="a<b"><br>x y<i/></MY-p>`: a name of three tokens, a `<` in a value, a void element
and an end tag in another case. -/
theorem parse_print_nested :
    let m : Markup := .paired "my-p".toList "MY-p".toList [("class".toList, "a<b".toList)]
      [.void "br".toList [], .text "x y".toList, .selfClosed "i".toList []]
    m.WellFormed ∧ m.IsRoot ∧ ∃ p, parse (String.ofList m.print) = .ok p ∧ p.diagnostics = [] ∧
      p.unparsedText? = none ∧
      p.tree.tagSpans 0 = [.span 0 36 [.span 18 22 [], .span 25 29 [], .span 29 36 []]] := by
  intro m
  have hnone : ∀ a ∈ ([] : List (List Char × List Char)), Markup.AttributeFits a := by
    intro a ha
    cases ha
  have hattributes : ∀ a ∈ [("class".toList, "a<b".toList)], Markup.AttributeFits a := by
    intro a ha
    rw [List.mem_singleton.mp ha]
    exact ⟨by decide, by simp [Markup.keyStops], by decide, by decide⟩
  have hi : (Markup.selfClosed "i".toList []).WellFormed := ⟨⟨by decide, by decide⟩, hnone⟩
  have hbr : (Markup.void "br".toList []).WellFormed :=
    ⟨⟨by decide, by decide⟩, by decide, hnone⟩
  have hchildren : Markup.WellFormedOf
      [.void "br".toList [], .text "x y".toList, .selfClosed "i".toList []] :=
    ⟨hbr, by simp [Markup.isText], ⟨by decide, by decide, by decide⟩, by simp [Markup.isText], hi,
      by simp [Markup.isText], trivial⟩
  have hm : m.WellFormed :=
    ⟨⟨by decide, by decide⟩, by decide, by decide, by decide, hattributes, hchildren⟩
  have hroot : m.IsRoot := (by decide : ({} : Options).isTextTag "my-p".toList = false)
  exact ⟨hm, hroot, parse_print m hm hroot⟩

end TemplateMarkup
