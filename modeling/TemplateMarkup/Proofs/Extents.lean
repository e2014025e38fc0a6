import TemplateMarkup.Token

/-! # How far a closer is

Comments, sections and the like run through their first closer, or to the end of
the source without one. `Text.Through` says so of characters, `Token.through` finds
the place among tokens. They agree where no closer begins inside a token. -/

namespace TemplateMarkup

variable {ends : List Char → List Char → Prop} {closer text used : List Char} {kinds : List Kind}
  {t : Token} {ts front : List Token}

/-- The text through the closer behind the first body at which the text ends. If it ends nowhere,
this is all of it. -/
inductive Text.Through (ends : List Char → List Char → Prop) (closer text : List Char) :
    List Char → Prop
  | closed {body : List Char} : ends text body →
      (∀ other, ends text other → body.length ≤ other.length) →
      Through ends closer text (body ++ closer)
  | unclosed : (∀ body, ¬ ends text body) → Through ends closer text text

namespace Text.Through

/-- Where a text ends at once, the closer is what comes first. -/
theorem starts (h : ends text []) : Through ends closer text closer :=
  closed h fun _ _ => Nat.zero_le _

/-- Where the text ends neither inside nor in front of a part, the part is gone through. -/
theorem append {part : List Char}
    (hpart : ∀ body, ends (part ++ text) body ↔ ∃ more, body = part ++ more ∧ ends text more)
    (h : Through ends closer text used) : Through ends closer (part ++ text) (part ++ used) := by
  cases h with
  | unclosed hnone =>
    refine .unclosed fun body hbody => ?_
    obtain ⟨more, -, hmore⟩ := (hpart body).mp hbody
    exact hnone more hmore
  | @closed body hends hleast =>
    rw [← List.append_assoc]
    refine .closed ((hpart _).mpr ⟨body, rfl, hends⟩) fun other hother => ?_
    obtain ⟨more, rfl, hmore⟩ := (hpart other).mp hother
    rw [List.length_append, List.length_append]
    exact Nat.add_le_add_left (hleast more hmore) _

end Text.Through

/-- A closer comes behind a part of the text, or begins in it. -/
theorem Text.closer_prefix_append {part body : List Char} : body ++ closer <+: part ++ text ↔
    (∃ more, body = part ++ more ∧ more ++ closer <+: text) ∨
      ∃ more, more ≠ [] ∧ part = body ++ more ∧ closer <+: more ++ text := by
  constructor
  · intro h
    have hbody : body <+: part ++ text := (List.prefix_append _ _).trans h
    rcases List.prefix_or_prefix_of_prefix ⟨text, rfl⟩ hbody with ⟨more, rfl⟩ | ⟨more, rfl⟩
    · rw [List.append_assoc, List.prefix_append_right_inj] at h
      exact .inl ⟨more, rfl, h⟩
    · rw [List.append_assoc, List.prefix_append_right_inj] at h
      by_cases hnil : more = []
      · subst hnil
        exact .inl ⟨[], by simp, h⟩
      · exact .inr ⟨more, hnil, rfl, h⟩
  · rintro (⟨more, rfl, h⟩ | ⟨more, -, rfl, h⟩)
    · rwa [List.append_assoc, List.prefix_append_right_inj]
    · rwa [List.append_assoc, List.prefix_append_right_inj]

namespace Token

/-- Whether tokens of these kinds come first. -/
def startsWith (kinds : List Kind) (ts : List Token) : Bool :=
  (ts.take kinds.length).map kind == kinds

/-- The tokens through the first that have these kinds in a row; all of them if there are none. -/
def through (kinds : List Kind) : List Token → List Token
  | [] => []
  | t :: ts =>
    if startsWith kinds (t :: ts) then (t :: ts).take kinds.length else t :: through kinds ts

/-- Tokens that begin no such row are passed. -/
theorem through_append (h : ∀ us, us ≠ [] → us <:+ front → startsWith kinds (us ++ ts) = false) :
    through kinds (front ++ ts) = front ++ through kinds ts := by
  induction front with
  | nil => rfl
  | cons t front ih =>
    have hfirst := h _ (List.cons_ne_nil t front) (List.suffix_refl _)
    rw [List.cons_append] at hfirst
    rw [List.cons_append, through, hfirst, if_neg Bool.false_ne_true,
      ih fun us hne hus => h us hne (hus.trans (List.suffix_cons t front))]
    rfl

/-- A row begins with a token of its first kind. -/
theorem startsWith_of_ne {first : Kind} {rest : List Kind} (h : t.kind ≠ first) (ts : List Token) :
    startsWith (first :: rest) (t :: ts) = false := by
  simp [startsWith, h]

theorem through_pass {first : Kind} {rest : List Kind} (h : ∀ t ∈ front, t.kind ≠ first)
    (ts : List Token) :
    through (first :: rest) (front ++ ts) = front ++ through (first :: rest) ts := by
  refine through_append fun us hne hus => ?_
  obtain ⟨t, us, rfl⟩ := List.exists_cons_of_ne_nil hne
  exact startsWith_of_ne (h t (hus.subset (List.mem_cons_self ..))) _

/-- Tokens and characters agree on the first closer if they agree, at every token, on whether one
begins there. -/
theorem text_through (hnil : ∀ body, ¬ ends [] body)
    (hstart : ∀ us, us <:+ ts → startsWith kinds us = true →
      ends (textOf us) [] ∧ textOf (us.take kinds.length) = closer)
    (hpass : ∀ t us, t :: us <:+ ts → startsWith kinds (t :: us) = false → ∀ body,
      ends (t.text ++ textOf us) body ↔ ∃ more, body = t.text ++ more ∧ ends (textOf us) more) :
    Text.Through ends closer (textOf ts) (textOf (through kinds ts)) := by
  induction ts with
  | nil => exact .unclosed hnil
  | cons t ts ih =>
    have hrest := ih (fun us hus => hstart us (hus.trans (List.suffix_cons t ts)))
      fun u us hus => hpass u us (hus.trans (List.suffix_cons t ts))
    rw [through]
    split
    · next hs =>
      obtain ⟨hends, htext⟩ := hstart _ (List.suffix_refl _) hs
      rw [htext]
      exact .starts hends
    · next hs => exact hrest.append (hpass t ts (List.suffix_refl _) (by simpa using hs))

end Token

end TemplateMarkup
