import TemplateMarkup.Proofs.Claims
import TemplateMarkup.Proofs.Extents
import TemplateMarkup.Proofs.TokenTable

/-! # The extent of an inline comment

An inline comment runs to the first token that closes one. In characters, this is
the first `*@` that no `@` touches from the left. Where one does, it makes an opener
with the asterisk, and no closer is left. -/

namespace TemplateMarkup

open Token

/-! ## Where a comment ends -/

namespace InlineComment

def opener : List Char := ['@', '*']

def closer : List Char := ['*', '@']

/-- Behind the body comes a `*@`, and the body does not end with an `@`, which would make an opener
of the asterisk. -/
structure EndsBehind (text body : List Char) : Prop where
  closer : body ++ closer <+: text
  free : body.getLast? ≠ some '@'

/-- The part of the text behind an opener that belongs to the comment. -/
def Extent (text body : List Char) : Prop := Text.Through EndsBehind closer text body

variable {t : Token} {ts front back : List Token} {text body used : List Char}

theorem text_of_commentOpen (h : Belongs .commentOpen text) : text = opener :=
  h.eq_of_words (by decide) (by decide) (by decide)

theorem text_of_commentClose (h : Belongs .commentClose text) : text = closer :=
  h.eq_of_words (by decide) (by decide) (by decide)

theorem not_endsBehind_nil (body : List Char) : ¬ EndsBehind [] body := by
  rintro ⟨⟨rest, h⟩, -⟩
  simp [closer] at h

/-- An asterisk inside a token that does not close a comment: behind an `@`, or all of the token. -/
theorem asterisk_inside {kind : Kind} (h : Belongs kind (body ++ '*' :: used))
    (hk : kind ≠ .commentClose) : body = ['@'] ∨ body = [] ∧ used = [] := by
  generalize htext : body ++ '*' :: used = text at h
  have hmem : '*' ∈ text := by simp [← htext]
  cases h with
  | word hword =>
    have hall : ∀ word ∈ words, word.1 ≠ .commentClose → '*' ∈ word.2 →
        word.2 = ['@', '*'] ∨ word.2 = ['*'] := by decide
    rcases hall _ hword hk hmem with rfl | rfl
    · cases body with
      | nil => simp at htext
      | cons b body =>
        obtain ⟨rfl, rfl, -⟩ : b = '@' ∧ body = [] ∧ used = [] := by
          simpa [List.append_eq_singleton_iff] using htext
        exact .inl rfl
    · exact .inr (by simpa [List.append_eq_cons_iff] using htext)
  | blanks _ hall => exact absurd (hall _ hmem) (by decide)
  | run _ hall => exact absurd (by decide) (hall _ hmem)

/-- The token that ends with an `@` and does not close a comment. -/
theorem eq_of_getLast_at {kind : Kind} (h : Belongs kind text) (hk : kind ≠ .commentClose)
    (hlast : text.getLast? = some '@') : text = ['@'] := by
  have hmem : '@' ∈ text := List.mem_of_getLast? hlast
  cases h with
  | word hword =>
    have hall : ∀ word ∈ words, word.1 ≠ .commentClose → word.2.getLast? = some '@' →
        word.2 = ['@'] := by decide
    exact hall _ hword hk hlast
  | blanks _ hall => exact absurd (hall _ hmem) (by decide)
  | run _ hall => exact absurd (by decide) (hall _ hmem)

/-- A comment does not end inside or in front of a token that does not close one. -/
theorem endsBehind_cons (h : MaximalMunch (t :: ts)) (hk : t.kind ≠ .commentClose) :
    EndsBehind (t.text ++ textOf ts) body ↔
      ∃ more, body = t.text ++ more ∧ EndsBehind (textOf ts) more := by
  obtain ⟨htable, hmax, -⟩ := h
  have hbelongs := inTable_iff.mp htable
  constructor
  · rintro ⟨hcloser, hfree⟩
    rcases Text.closer_prefix_append.mp hcloser with ⟨more, rfl, hmore⟩ | ⟨more, hne, htext, hmore⟩
    · refine ⟨more, rfl, hmore, fun hlast => hfree ?_⟩
      rw [List.getLast?_append, hlast]
      rfl
    · -- the asterisk of the `*@` is inside the token
      exfalso
      obtain ⟨a, more, rfl⟩ := List.exists_cons_of_ne_nil hne
      obtain ⟨rfl, hnext⟩ := List.cons_prefix_cons.mp hmore
      rw [htext] at hbelongs hmax
      rcases asterisk_inside hbelongs hk with rfl | ⟨rfl, rfl⟩
      · exact hfree rfl
      · exact hmax ['@'] (List.cons_ne_nil _ _) hnext .commentClose (.word (by decide))
  · rintro ⟨more, rfl, hcloser, hfree⟩
    refine ⟨Text.closer_prefix_append.mpr (.inl ⟨more, rfl, hcloser⟩), fun hlast => ?_⟩
    cases more with
    | cons b more =>
      rw [List.getLast?_append_of_ne_nil _ (List.cons_ne_nil _ _)] at hlast
      exact hfree hlast
    | nil =>
      rw [List.append_nil] at hlast
      rw [eq_of_getLast_at hbelongs hk hlast] at hmax
      exact hmax ['*'] (List.cons_ne_nil _ _) ((List.prefix_append ['*'] ['@']).trans hcloser)
        .commentOpen (.word (by decide))

/-- A comment ends with the first token that closes one. -/
theorem extent_through (h : MaximalMunch ts) :
    Extent (textOf ts) (textOf (through [.commentClose] ts)) := by
  refine text_through not_endsBehind_nil (fun us hus hstart => ?_) fun t us hus hpass body => ?_
  · cases us with
    | nil => cases hstart
    | cons t us =>
      have hk : t.kind = .commentClose := by simpa [startsWith] using hstart
      have htext : t.text = closer :=
        text_of_commentClose (hk ▸ inTable_iff.mp (h.suffix hus).1)
      exact ⟨⟨⟨textOf us, by rw [textOf_cons, htext]; rfl⟩, by simp⟩, by simp [htext]⟩
  · exact endsBehind_cons (h.suffix hus) (by simpa [startsWith] using hpass)

end InlineComment

/-! ## The comment that is read -/

namespace Cursor

open InlineComment

variable {σ : Type} {c : Cursor σ}

/-- On the opener of a comment, the tokens through the first that closes one are claimed. -/
theorem inlineComment_claims (hh : c.held = []) (hcur : c.current = .commentOpen)
    (htexts : ∀ t ∈ c.ahead, t.text ≠ []) : ∃ t ts, c.ahead = t :: ts ∧ t.kind = .commentOpen ∧
      Claims .inlineComment (t :: through [.commentClose] ts) c c.inlineComment ∧
      c.ahead = t :: through [.commentClose] ts ++ c.inlineComment.ahead := by
  obtain ⟨t, ts, ha⟩ := List.exists_cons_of_ne_nil (ahead_ne_nil_of_nth hcur (by decide))
  obtain ⟨hsplit, hpass, hstop⟩ := run_spec (·.kind != .commentClose) ts
  generalize ts.takeWhile (·.kind != .commentClose) = front at hsplit hpass
  generalize ts.dropWhile (·.kind != .commentClose) = back at hsplit hstop
  subst hsplit
  have hback : ∀ u ∈ back.head?, u.kind = .commentClose := fun u hu => by simpa using hstop u hu
  have hthrough : through [.commentClose] (front ++ back) = front ++ back.take 1 := by
    rw [through_pass fun u hu => by simpa using hpass u hu]
    cases back with
    | nil => rfl
    | cons u back => simp [through, startsWith, hback u rfl]
  have hstart : c.start.2.held = [] := (held_start c).trans hh
  have hopen := Gathers.bump hstart ((ahead_start c).trans ha)
  have hrest : c.start.2.bump.ahead = front ++ back := by
    rw [ahead_bump, ahead_start, ha, List.tail_cons]
  have hbody := Gathers.bumpN (hopen.held.trans hstart) hrest
  have hnext : (c.start.2.bump.bumpN front.length).ahead = back := by
    rw [ahead_bumpN, hrest, List.drop_left]
  rw [← bumpWhile_eq hrest hpass hstop] at hbody hnext
  obtain ⟨hclose, hahead⟩ :=
    Gathers.eat ((hbody.held.trans hopen.held).trans hstart) (by rwa [hnext])
  rw [hnext] at hclose hahead
  have hclaims := ((hopen.trans hbody).trans hclose).claims hh htexts .inlineComment
  have hcomment : c.inlineComment = (((c.start.2.bump.bumpWhile (·.kind != .commentClose)).eat
      .commentClose).2.flushRaw).complete c.start.1 .inlineComment := by
    rw [inlineComment, if_pos (by simpa [at?] using hcur)]
  have hahead : c.inlineComment.ahead = back.drop 1 := by
    rw [hcomment, ahead_complete]
    exact hahead
  refine ⟨t, front ++ back, ha, (current_cons ha).symm.trans hcur, ?_, ?_⟩
  · rw [hthrough, hcomment]
    exact hclaims
  · rw [hthrough, hahead, ha, List.cons_append, List.append_assoc, List.take_append_drop]

/-- Called on its opener, a comment claims it with the text through the first `*@` that no `@`
touches from the left, or with the rest of the source. The tokens behind it are left. -/
theorem inlineComment_extent {source : List Char} (hh : c.held = [])
    (ha : c.ahead <:+ lex source) (hcur : c.current = .commentOpen) :
    ∃ used text body, textOf c.ahead = opener ++ text ∧ Extent text body ∧
      textOf used = opener ++ body ∧ Claims .inlineComment used c c.inlineComment ∧
      c.ahead = used ++ c.inlineComment.ahead := by
  have htexts : ∀ t ∈ c.ahead, t.text ≠ [] := fun t ht => text_ne_nil_of_mem_lex (ha.subset ht)
  obtain ⟨t, ts, hsplit, hopen, hclaims, hrest⟩ := inlineComment_claims hh hcur htexts
  have hmunch : MaximalMunch (t :: ts) := by
    rw [← hsplit]
    exact (maximalMunch_lex source).suffix ha
  have htext : t.text = opener := text_of_commentOpen (hopen ▸ inTable_iff.mp hmunch.1)
  refine ⟨_, textOf ts, _, ?_, extent_through hmunch.2.2, ?_, hclaims, hrest⟩
  · rw [hsplit, textOf_cons, htext]
  · rw [textOf_cons, htext]

/-- The first `*@` belongs to an opener in the body, and the comment ends with the next one. -/
theorem inlineComment_extent_opener :
    let c : Cursor Unit := { ahead := lex "@* a @*@ b *@x".toList, context := {}, host := () }
    c.held = [] ∧ c.current = .commentOpen ∧
      Claims .inlineComment (lex "@* a @*@ b *@".toList) c c.inlineComment ∧
      Extent " a @*@ b *@x".toList " a @*@ b *@".toList := by
  intro c
  have hcur : c.current = .commentOpen := by decide
  obtain ⟨used, text, body, htext, hextent, hused, hclaims, hsplit⟩ :=
    inlineComment_extent rfl (List.suffix_refl (lex "@* a @*@ b *@x".toList)) hcur
  have hrest : c.inlineComment.ahead = lex "x".toList := by decide +kernel
  rw [hrest] at hsplit
  obtain rfl : used = lex "@* a @*@ b *@".toList := List.append_cancel_right hsplit.symm
  obtain rfl : " a @*@ b *@x".toList = text := List.append_cancel_left htext
  obtain rfl : " a @*@ b *@".toList = body := List.append_cancel_left hused
  exact ⟨rfl, hcur, hclaims, hextent⟩

/-- An `@` in front of the first `*@` hides it, and the comment takes the rest of the source. -/
theorem inlineComment_misses_closer :
    let c : Cursor Unit := { ahead := lex "@* a@*@ b".toList, context := {}, host := () }
    c.current = .commentOpen ∧
      closer <+: " a@*@ b".toList.drop 3 ∧ (∀ n < 3, ¬ closer <+: " a@*@ b".toList.drop n) ∧
      Claims .inlineComment (lex "@* a@*@ b".toList) c c.inlineComment ∧
      c.inlineComment.ahead = [] := by
  intro c
  have hcur : c.current = .commentOpen := by decide
  have htexts : ∀ t ∈ lex "@* a@*@ b".toList, t.text ≠ [] := fun t => text_ne_nil_of_mem_lex
  obtain ⟨t, ts, -, -, hclaims, hrest⟩ := inlineComment_claims (c := c) rfl hcur htexts
  have hnone : c.inlineComment.ahead = [] := by decide +kernel
  rw [hnone, List.append_nil] at hrest
  rw [← hrest] at hclaims
  exact ⟨hcur, by decide, by decide, hclaims, hnone⟩

end Cursor

end TemplateMarkup
