import TemplateMarkup.Proofs.Lexing

/-! # The tokens of a text with every `@` doubled

A doubled `@` is two tokens only if no asterisk touches it: in front of an
asterisk its second half opens a comment, and behind one its first half closes
a comment, so that the other half stands alone. `undoubled?` reads tokens as a
scan does, and `undoubled?_lex` says when it reads back the text. -/

namespace TemplateMarkup

open Form Token

variable {text rest read : List Char} {form longer : Form} {c : Char}

/-- The text with each `@` written twice. -/
def doubled (text : List Char) : List Char :=
  text.flatMap fun c => if c = '@' then ['@', '@'] else [c]

/-- No `@` has an asterisk next to it. -/
def Separated (text : List Char) : Prop := ¬ ['@', '*'] <:+: text ∧ ¬ ['*', '@'] <:+: text

instance (text : List Char) : Decidable (Separated text) :=
  inferInstanceAs (Decidable (_ ∧ _))

/-- The text of tokens in which each two `@` in a row count as one. There is none if an `@` stands
alone or opens a comment. -/
def undoubled? : List Token → Option (List Char)
  | [] => some []
  | t :: ts =>
    if t.kind = .commentOpen then none
    else if t.kind = .transition then
      match ts with
      | [] => none
      | u :: us => if u.kind = .transition then (undoubled? us).map (u.text ++ ·) else none
    else (undoubled? ts).map (t.text ++ ·)

@[simp] theorem doubled_nil : doubled [] = [] := rfl

@[simp] theorem doubled_at (text : List Char) : doubled ('@' :: text) = '@' :: '@' :: doubled text := rfl

theorem doubled_cons (h : c ≠ '@') (text : List Char) : doubled (c :: text) = c :: doubled text := by
  simp [doubled, h]

theorem head?_doubled (text : List Char) : (doubled text).head? = text.head? := by
  cases text with
  | nil => rfl
  | cons c text =>
    by_cases h : c = '@'
    · rw [h, doubled_at]
      rfl
    · rw [doubled_cons h]
      rfl

/-- The first two characters are one pair of neighbours, the others stand behind. -/
theorem separated_cons (c : Char) (text : List Char) : Separated (c :: text) ↔
    ¬ (c = '@' ∧ text.head? = some '*') ∧ ¬ (c = '*' ∧ text.head? = some '@') ∧ Separated text := by
  have hpair (a b : Char) :
      [a, b] <:+: c :: text ↔ c = a ∧ text.head? = some b ∨ [a, b] <:+: text := by
    rw [List.infix_cons_iff, List.cons_prefix_cons, eq_comm]
    cases text with
    | nil => simp
    | cons d text => simp [List.cons_prefix_cons, Eq.comm (a := b)]
  rw [Separated, Separated, hpair, hpair]
  grind

/-! ## The tokens around an `@` -/

theorem undoubled?_pair {t : Token} (ht : t.kind = .transition) (us : List Token) (u : Token) :
    undoubled? (t :: u :: us) =
      if u.kind = .transition then (undoubled? us).map (u.text ++ ·) else none := by
  rw [undoubled?.eq_def]
  simp [ht]

theorem undoubled?_commentOpen {t : Token} (ht : t.kind = .commentOpen) (ts : List Token) :
    undoubled? (t :: ts) = none := by
  rw [undoubled?.eq_def]
  simp [ht]

/-- A token that has nothing to do with code stands for its text. -/
theorem undoubled?_literal {t : Token} (hopen : t.kind ≠ .commentOpen) (hat : t.kind ≠ .transition)
    (ts : List Token) : undoubled? (t :: ts) = (undoubled? ts).map (t.text ++ ·) := by
  rw [undoubled?.eq_def]
  simp [hopen, hat]

/-- Behind a lone `@` nothing is read as text. -/
theorem undoubled?_lone (h : rest.head? ≠ some '@') : undoubled? (lex ('@' :: rest)) = none := by
  cases rest with
  | nil => rfl
  | cons c rest =>
    by_cases hstar : c = '*'
    · rw [hstar, lex_commentOpen, undoubled?_commentOpen rfl]
    · obtain ⟨t, ts, ht, -, hbegins⟩ := lex_cons c rest
      have hkind : t.kind ≠ .transition := by
        intro hkind
        rw [hkind] at hbegins
        have hmem := mem_starters hbegins rfl
        exact h (congrArg some (List.mem_singleton.mp hmem))
      rw [lex_transition (by simpa using hstar), ht, undoubled?_pair rfl, if_neg hkind]

/-- One `@` too many is noticed at the latest behind the others. -/
theorem undoubled?_odd (text : List Char) : undoubled? (lex ('@' :: doubled text)) = none := by
  induction text with
  | nil => rfl
  | cons c text ih =>
    by_cases hat : c = '@'
    · rw [hat, doubled_at, lex_transition (by simp), lex_transition (by simp), undoubled?_pair rfl,
        if_pos rfl, ih]
      rfl
    · rw [doubled_cons hat]
      exact undoubled?_lone (by simpa using hat)

/-! ## Reading a doubled text back -/

/-- The form of a token that has nothing to do with code. -/
def Form.Inert (form : Form) : Prop := form.kind ≠ .transition ∧ form.kind ≠ .commentOpen

theorem Form.inert_ofChar (h : c ≠ '@') : (ofChar c).Inert := by
  unfold ofChar
  split
  case h_7 => exact absurd rfl h
  all_goals exact ⟨by decide, by decide⟩

theorem Form.Inert.extend (h : form.Inert) (he : form.extend? c = some longer) (hat : c ≠ '@') :
    longer.Inert ∧ longer ≠ .asterisk ∧ c ≠ '*' := by
  revert he
  cases form with
  | whole =>
    intro he
    cases he
  | asterisk =>
    intro he
    simp [extend?, hat] at he
  | atSign => exact absurd rfl h.1
  | blanks | run =>
    unfold extend?
    dsimp only
    split
    · next hc =>
      rintro ⟨⟩
      refine ⟨⟨by decide, by decide⟩, by decide, ?_⟩
      rintro rfl
      cases hc
    · intro he
      cases he
  | carriageReturn | hyphen =>
    unfold extend?
    dsimp only
    split
    · next hc =>
      rintro ⟨⟩
      exact ⟨⟨by decide, by decide⟩, by decide, by rw [hc]; decide⟩
    · intro he
      cases he

theorem Form.ofChar_asterisk : ofChar c = .asterisk ↔ c = '*' := by
  constructor
  · unfold ofChar
    split <;> simp
  · rintro rfl
    rfl

theorem Form.Inert.extend_at (h : form.Inert) :
    form.extend? '@' = if form = .asterisk then some (.whole .commentClose) else none := by
  cases form with
  | atSign => exact absurd rfl h.1
  | asterisk | blanks | carriageReturn | hyphen | run | whole => rfl

theorem undoubled?_doubled_at (text : List Char) : undoubled? (lex (doubled ('@' :: text))) =
    if text.head? = some '*' then none else (undoubled? (lex (doubled text))).map ('@' :: ·) := by
  rw [doubled_at, lex_transition (by simp)]
  split
  · next h =>
    obtain ⟨rest, rfl⟩ := List.head?_eq_some_iff.mp h
    rw [doubled_cons (by decide), lex_commentOpen, undoubled?_pair rfl, if_neg (by decide)]
  · next h =>
    rw [lex_transition (by rwa [head?_doubled]), undoubled?_pair rfl, if_pos rfl]
    rfl

theorem lexFrom_literal (h : form.Inert) (hnone : form.extend? c = none) :
    undoubled? (lexFrom form read (c :: rest)) =
      (undoubled? (lex (c :: rest))).map (read.reverse ++ ·) := by
  rw [lexFrom, hnone]
  exact undoubled?_literal h.2 h.1 _

/-- The first token either is still to come or has begun already; an asterisk that has begun it takes
the first `@` away. -/
theorem undoubled?_doubled (text : List Char) :
    (undoubled? (lex (doubled text)) = if Separated text then some text else none) ∧
      ∀ {form read}, form.Inert → undoubled? (lexFrom form read (doubled text)) =
        if (form = .asterisk ∧ text.head? = some '@') ∨ ¬ Separated text then none
        else some (read.reverse ++ text) := by
  induction text with
  | nil =>
    refine ⟨rfl, fun {form read} h => ?_⟩
    have hlast : undoubled? (lexFrom form read []) = some (read.reverse ++ []) :=
      undoubled?_literal h.2 h.1 []
    rw [doubled_nil, hlast, if_neg]
    rintro (⟨-, hnil⟩ | hnil)
    · cases hnil
    · exact hnil (by decide)
  | cons c text ih =>
    obtain ⟨hlex, hfrom⟩ := ih
    have hfirst : undoubled? (lex (doubled (c :: text))) =
        if Separated (c :: text) then some (c :: text) else none := by
      by_cases hat : c = '@'
      · subst hat
        rw [undoubled?_doubled_at, hlex]
        simp only [separated_cons]
        grind
      · have hread : undoubled? (lex (c :: doubled text)) = _ := hfrom (Form.inert_ofChar hat)
        rw [doubled_cons hat, hread]
        simp only [separated_cons, Form.ofChar_asterisk]
        grind
    refine ⟨hfirst, fun {form read} h => ?_⟩
    by_cases hat : c = '@'
    · subst hat
      by_cases hstar : form = .asterisk
      · subst hstar
        have hodd : undoubled? (lexFrom .asterisk read (doubled ('@' :: text))) = none := by
          have hclose : Form.Inert (.whole .commentClose) := ⟨by decide, by decide⟩
          have hnone : (Form.whole .commentClose).extend? '@' = none := rfl
          rw [doubled_at, lexFrom, h.extend_at, if_pos rfl]
          dsimp only
          rw [lexFrom_literal hclose hnone, undoubled?_odd]
          rfl
        rw [hodd, if_pos (.inl ⟨rfl, rfl⟩)]
      · have hnone : form.extend? '@' = none := by rw [h.extend_at, if_neg hstar]
        rw [doubled_at, lexFrom_literal h hnone, ← doubled_at, hfirst]
        grind
    · rw [doubled_cons hat]
      cases he : form.extend? c with
      | some longer =>
        obtain ⟨hlonger, hstar, hc⟩ := h.extend he hat
        rw [lexFrom, he]
        refine (hfrom hlonger).trans ?_
        simp only [separated_cons]
        grind
      | none =>
        rw [lexFrom_literal h he, ← doubled_cons hat, hfirst]
        grind

/-- A doubled text is read back if no `@` of it touches an asterisk, and only then. -/
theorem undoubled?_lex (text : List Char) :
    undoubled? (lex (doubled text)) = if Separated text then some text else none :=
  (undoubled?_doubled text).1

end TemplateMarkup
