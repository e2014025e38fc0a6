import TemplateMarkup.Proofs.RoundTrip
import TemplateMarkup.Proofs.TagHeads
import TemplateMarkup.Proofs.TagWalks

/-! # End tags of void elements

A void tag needs no end tag. One that follows, spacing apart, is taken along, and
nothing else is: `VoidEnd` says what counts as one on the tokens, and the parser
takes exactly that or leaves the cursor where it is. -/

namespace TemplateMarkup

/-! ## Names -/

/-- The names of void elements are not empty and have no `!` in front. -/
def Options.PlainVoids (o : Options) : Prop :=
  ∀ void ∈ o.voidElements, void.toList ≠ [] ∧ void.toList.head? ≠ some '!'

/-- An end tag can repeat the name with text tokens alone. -/
structure Plain (name : List Char) : Prop where
  ne_nil : name ≠ []
  head_ne : name.head? ≠ some '!'

instance (o : Options) : Decidable o.PlainVoids := inferInstanceAs (Decidable (∀ _ ∈ _, _))

theorem Text.head_sameIgnoringCase {a b : List Char} {d : Char} (h : sameIgnoringCase a b = true)
    (hd : ∀ c : Char, c.toLower = d.toLower → c = d) : a.head? = some d ↔ b.head? = some d := by
  have hfold := congrArg List.head? (sameIgnoringCase_iff.mp h)
  simp only [foldCase, List.head?_map] at hfold
  cases a <;> cases b <;> simp at hfold ⊢
  next x _ y _ =>
    constructor
    · rintro rfl
      exact hd y hfold.symm
    · rintro rfl
      exact hd x hfold

theorem Text.toLower_eq_bang {c : Char} (h : c.toLower = '!'.toLower) : c = '!' := by
  have hsame := apply_toLower (fun c : Char => decide (c = '!')) (by decide) c
  rw [h] at hsame
  simpa using hsame.symm

/-- A name that is compared with a plain one is plain too. -/
theorem Plain.congr {a b : List Char} (ha : Plain a) (h : Text.sameIgnoringCase a b = true) :
    Plain b where
  ne_nil := by
    rintro rfl
    have hfold := Text.sameIgnoringCase_iff.mp h
    simp [Text.foldCase, ha.ne_nil] at hfold
  head_ne hb := ha.head_ne ((Text.head_sameIgnoringCase h fun _ => Text.toLower_eq_bang).mpr hb)

theorem Options.PlainVoids.plain {o : Options} (h : o.PlainVoids) {name : List Char}
    (hvoid : o.isVoidElement name = true) : Plain name := by
  obtain ⟨void, hmem, hsame⟩ := List.any_eq_true.mp hvoid
  obtain ⟨hne, hhead⟩ := h void hmem
  exact Plain.congr ⟨hne, hhead⟩ hsame

/-! ## The tokens of an end tag -/

/-- The tokens that a void element of the name takes along from behind its tag, and what comes after
them: spacing, `</`, all text tokens that follow, which make the name, and everything through the
next `>`. If a `<` or the end of the source comes before that, it ends there. -/
structure VoidEnd (name : List Char) (gap : List Token) (lt slash : Token)
    (ns body close rest : List Token) : Prop where
  gap : ∀ t ∈ gap, t.kind.isTrivia = true
  openAngle : lt.kind = .openAngle
  slash : slash.kind = .slash
  text : ∀ t ∈ ns, t.kind = .text
  name : Text.sameIgnoringCase (Token.textOf ns) name = true
  longest : ∀ t ∈ (body ++ (close ++ rest)).head?, t.kind ≠ .text
  body : ∀ t ∈ body, t.kind ≠ .closeAngle ∧ t.kind ≠ .openAngle
  close : (∃ gt, close = [gt] ∧ gt.kind = .closeAngle) ∨
    close = [] ∧ ∀ t ∈ rest.head?, t.kind = .openAngle

/-- These tokens are the end tag of a void element in front of those. -/
def TakesAlong (name : List Char) (used rest : List Token) : Prop :=
  ∃ gap lt slash ns body close, VoidEnd name gap lt slash ns body close rest ∧
    used = gap ++ lt :: slash :: (ns ++ (body ++ close))

theorem VoidEnd.stop {name : List Char} {gap ns body close rest : List Token} {lt slash : Token}
    (h : VoidEnd name gap lt slash ns body close rest) : ∀ t ∈ (close ++ rest).head?,
      ([.closeAngle, .openAngle] : List Kind).contains t.kind = true := by
  intro t ht
  rcases h.close with ⟨gt, rfl, hgt⟩ | ⟨rfl, hrest⟩
  · cases ht
    simp [hgt]
  · simp [hrest t ht]

/-- Behind `</` and a name there is always an end tag: it goes on until a `>` or a `<` comes. -/
theorem exists_voidEnd {name : List Char} {gap ns line : List Token} {lt slash : Token}
    (hgap : ∀ t ∈ gap, t.kind.isTrivia = true) (hlt : lt.kind = .openAngle)
    (hslash : slash.kind = .slash) (hns : ∀ t ∈ ns, t.kind = .text)
    (hname : Text.sameIgnoringCase (Token.textOf ns) name = true)
    (hlongest : ∀ t ∈ line.head?, t.kind ≠ .text) :
    ∃ body close rest, line = body ++ (close ++ rest) ∧
      VoidEnd name gap lt slash ns body close rest := by
  obtain ⟨body, line, rfl, hbody, hangle⟩ := Cursor.run_split
    (fun t => !([.closeAngle, .openAngle] : List Kind).contains t.kind) line
  have hpass : ∀ t ∈ body, t.kind ≠ .closeAngle ∧ t.kind ≠ .openAngle := by
    intro t ht
    simpa using hbody t ht
  have hends {close rest : List Token} (hline : line = close ++ rest)
      (hclose : (∃ gt, close = [gt] ∧ gt.kind = .closeAngle) ∨
        close = [] ∧ ∀ t ∈ rest.head?, t.kind = .openAngle) :
      ∃ body' close rest, body ++ line = body' ++ (close ++ rest) ∧
        VoidEnd name gap lt slash ns body' close rest :=
    ⟨body, close, rest, by rw [hline],
      ⟨hgap, hlt, hslash, hns, hname, by rwa [← hline], hpass, hclose⟩⟩
  cases line with
  | nil => exact @hends [] _ rfl (.inr ⟨rfl, fun t ht => by cases ht⟩)
  | cons t line =>
    have ht : t.kind = .closeAngle ∨ t.kind = .openAngle :=
      Decidable.or_iff_not_imp_left.mpr (by simpa using hangle t rfl)
    rcases ht with ht | ht
    · exact @hends [t] _ rfl (.inl ⟨t, rfl, ht⟩)
    · refine @hends [] _ rfl (.inr ⟨rfl, ?_⟩)
      rintro u ⟨⟩
      exact ht

namespace Cursor

variable {σ : Type} {c d : Cursor σ} {name : List Char} {used rest gap ns body close : List Token}
  {lt slash : Token}

/-- An end tag is taken with its `>`, if it has one. -/
theorem eat_close (h : VoidEnd name gap lt slash ns body close rest) (hh : d.held = [])
    (ha : d.ahead = close ++ rest) :
    Takes close (close.map .leaf) d (d.eat .closeAngle).2 := by
  rcases h.close with ⟨gt, rfl, hgt⟩ | ⟨rfl, hrest⟩
  · obtain ⟨heat, htake⟩ := Takes.eat_true hh ha hgt
    rw [heat]
    exact htake
  · have hnone : Token.kindAt rest 0 ≠ .closeAngle := by
      cases rest with
      | nil => decide
      | cons t rest =>
        have ht : t.kind = .openAngle := hrest t rfl
        simp [Token.kindAt, ht]
    rw [eat_false ha hnone]
    exact .refl hh

/-- An end tag that follows is taken, token by token. -/
theorem voidEndTag_takes (hn : Plain name) (hh : c.held = [])
    (h : VoidEnd name gap lt slash ns body close rest)
    (ha : c.ahead = gap ++ lt :: slash :: (ns ++ (body ++ (close ++ rest)))) :
    Takes (gap ++ lt :: slash :: (ns ++ (body ++ close)))
      ((gap ++ lt :: slash :: (ns ++ (body ++ close))).map .leaf) c (c.voidEndTag name) := by
  have hspacing : c.spacing 0 = gap.length := by
    refine runLength_eq ha h.gap ?_
    rintro t ⟨⟩
    rw [h.openAngle]
    rfl
  have hdrop : c.ahead.drop gap.length = lt :: slash :: (ns ++ (body ++ (close ++ rest))) := by
    rw [ha, List.drop_left]
  have hne : ns ≠ [] := by
    rintro rfl
    exact (hn.congr ((Text.sameIgnoringCase_comm _ _).trans h.name)).ne_nil rfl
  have hname : c.tagNameAt (gap.length + 2) = Token.textOf ns :=
    (Written.plain hne h.text).tagNameAt_eq (drop_succ (drop_succ hdrop)) h.longest
  have hclose : c.nth gap.length = .openAngle ∧ c.nth (gap.length + 1) = .slash ∧
      Text.sameIgnoringCase (c.tagNameAt (gap.length + 2)) name = true := by
    rw [hname, nth_eq hdrop, nth_eq (drop_succ hdrop)]
    exact ⟨h.openAngle, h.slash, h.name⟩
  have hopen : Takes (gap ++ [lt, slash]) ((gap ++ [lt, slash]).map .leaf) c
      (c.bumpN (gap.length + 2)) := by
    have hline : c.ahead = (gap ++ [lt, slash]) ++ (ns ++ (body ++ (close ++ rest))) := by simp [ha]
    have htwo := Takes.bumpN hh hline
    rwa [List.length_append] at htwo
  have hafter : (c.bumpN (gap.length + 2)).ahead = ns ++ (body ++ (close ++ rest)) :=
    hopen.ahead_eq (by simp [ha])
  have hread := Takes.eatName hopen.held hafter h.text h.longest
  have hpass : ∀ t ∈ body, (!([.closeAngle, .openAngle] : List Kind).contains t.kind) = true := by
    intro t ht
    simp [h.body t ht]
  have hskip := Takes.bumpWhile hread.held (hread.ahead_eq hafter) hpass
    fun t ht => by rw [h.stop t ht, Bool.not_true]
  have hlast := eat_close h hskip.held (hskip.ahead_eq (hread.ahead_eq hafter))
  have hwhole := (((hopen.trans hread).trans hskip).trans hlast).flush_literal
  rw [voidEndTag, hspacing]
  dsimp only
  rw [if_pos hclose, acceptUntil]
  simpa using hwhole

/-- A plain name that is read ahead has no `!` in front of it. -/
theorem tagNameAt_of_plain {k : Nat} {line : List Token} (hn : Plain name)
    (hsame : Text.sameIgnoringCase (c.tagNameAt k) name = true)
    (hdrop : c.ahead.drop k = ns ++ line) (hns : ∀ t ∈ ns, t.kind = .text)
    (hlongest : ∀ t ∈ line.head?, t.kind ≠ .text) : c.tagNameAt k = Token.textOf ns := by
  cases hbang : c.bangEscapeAt k with
  | true =>
    rw [tagNameAt, hbang, if_pos rfl] at hsame
    have hhead := (hn.congr ((Text.sameIgnoringCase_comm _ _).trans hsame)).head_ne
    exact absurd rfl hhead
  | false =>
    rw [tagNameAt, hbang, if_neg Bool.false_ne_true]
    exact textRunAt_eq hdrop hns hlongest

/-- What is not an end tag of the name stays where it is. -/
theorem voidEndTag_stays (hn : Plain name)
    (h : ∀ used rest, c.ahead = used ++ rest → ¬ TakesAlong name used rest) :
    c.voidEndTag name = c := by
  refine Markup.voidEndTag_eq ?_
  rw [Markup.NoEndTagAt]
  rintro ⟨hlt, hslash, hsame⟩
  rw [Nat.zero_add] at hlt hslash hsame
  obtain ⟨gap, line, ha, hgap, hstop⟩ := run_split (·.kind.isTrivia) c.ahead
  have hspacing : c.spacing 0 = gap.length := runLength_eq ha hgap hstop
  rw [hspacing] at hlt hslash hsame
  have hdrop : c.ahead.drop gap.length = line := by rw [ha, List.drop_left]
  obtain ⟨lt, slash, line, rfl⟩ : ∃ lt slash more, line = lt :: slash :: more := by
    have hnext : c.ahead.drop (gap.length + 1) = line.tail := by rw [← hdrop, List.tail_drop]
    rw [nth_eq hdrop] at hlt
    rw [nth_eq hnext] at hslash
    cases line with
    | nil => cases hlt
    | cons lt line =>
      cases line with
      | nil => cases hslash
      | cons slash more => exact ⟨lt, slash, more, rfl⟩
  rw [nth_eq hdrop] at hlt
  rw [nth_eq (drop_succ hdrop)] at hslash
  obtain ⟨ns, line, rfl, hns, hlongest⟩ := text_split line
  rw [tagNameAt_of_plain hn hsame (drop_succ (drop_succ hdrop)) hns hlongest] at hsame
  obtain ⟨body, close, rest, rfl, hend⟩ := exists_voidEnd hgap hlt hslash hns hsame hlongest
  exact h (gap ++ lt :: slash :: (ns ++ (body ++ close))) rest (by rw [ha]; simp)
    ⟨gap, lt, slash, ns, body, close, hend, rfl⟩

/-- The cursor behind the attributes of the start tag that comes next. -/
def behindAttributes (c : Cursor σ) (code : EmbeddedCode σ) : Cursor σ :=
  (c.start.2.bump.bangEscape.eatName.attributes code).2

/-- A void tag with a `>` of its own takes an end tag along and is complete. -/
theorem tag_void {code : EmbeddedCode σ} (hk : code.KeepsOptions) (tags : OpenTags)
    (hc : c.AtStartTag) (htext : c.context.options.isTextTag (c.tagNameAt 1) = false)
    (hvoid : c.context.options.isVoidElement (c.tagNameAt 1) = true) {gt : Token}
    (ha : (c.behindAttributes code).ahead = gt :: rest) (hgt : gt.kind = .closeAngle) :
    c.tag code tags = ⟨(((c.behindAttributes code).bump.flush .literal).voidEndTag
      (c.tagNameAt 1)).complete c.start.1 .tagBlock, tags, true⟩ := by
  have hoptions : (c.behindAttributes code).context.options = c.context.options := by
    rw [behindAttributes, options_attributes hk, context_eatName, context_bangEscape, context_bump,
      context_start]
  rw [hc.tag_eq, startTag]
  dsimp only
  rw [if_neg (by simp [htext]), restOfStartTag]
  dsimp only
  rw [← behindAttributes]
  generalize c.behindAttributes code = e at ha hoptions ⊢
  have hat : e.at? .openAngle = false := by simp [at?, current_cons ha, hgt]
  have heat : e.eat .slash = (false, e) := eat_false ha (by simp [Token.kindAt, hgt])
  rw [hat, if_neg Bool.false_ne_true, heat, closeAngle_of_ahead ha hgt]
  simp only [context_flush, context_bump, hoptions, hvoid]
  simp

end Cursor

end TemplateMarkup
