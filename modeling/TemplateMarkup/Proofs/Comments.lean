import TemplateMarkup.Markup.Special
import TemplateMarkup.Proofs.Lexing

/-! # Which comments are recognised

Whether `<!--` begins a comment is decided on tokens, in which the hyphens of a
run are paired from the left. In characters: the text behind it is cut at the
first `-->`, and the body in front of it must not begin with `>` or `->`, must
not contain `<!--`, also not with the hyphens of the closer, and must not have a
run of hyphens before `!>` that comes out even. HTML refuses any two hyphens
before `!>`, and it lets a body end with `<!`. -/

namespace TemplateMarkup

open Token

variable {body rest text word : List Char} {form : Form} {c : Char}

namespace Comment

def opener : List Char := ['<', '!', '-', '-']

def closer : List Char := ['-', '-', '>']

/-- What HTML allows as the body of a comment. -/
def AllowedBody (body : List Char) : Prop :=
  ¬ ['>'] <+: body ∧ ¬ ['-', '>'] <+: body ∧ ¬ opener <:+: body ∧ ¬ closer <:+: body ∧
    ¬ ['-', '-', '!', '>'] <:+: body ∧ ¬ ['<', '!', '-'] <:+ body

instance (body : List Char) : Decidable (AllowedBody body) :=
  inferInstanceAs (Decidable (_ ∧ _))

/-- A text that closes a comment as HTML asks for it. -/
def Grammatical (text : List Char) : Prop :=
  ∃ body rest, text = body ++ closer ++ rest ∧ AllowedBody body

/-- A run of this many hyphens, neither more nor fewer, stands before a `!>`. -/
def HyphenRun (n : Nat) (body : List Char) : Prop :=
  ∃ front back, body = front ++ List.replicate n '-' ++ '!' :: '>' :: back ∧ ¬ ['-'] <:+ front

/-- A run that comes out even, and is not empty. -/
def EvenRun (body : List Char) : Prop := ∃ pairs, HyphenRun (2 * pairs + 2) body

/-- What is recognised as the body of a comment. -/
def RecognisedBody (body : List Char) : Prop :=
  ¬ ['>'] <+: body ∧ ¬ ['-', '>'] <+: body ∧ ¬ opener <:+: body ∧ ¬ closer <:+: body ∧
    ¬ EvenRun body ∧ ¬ ['<', '!', '-'] <:+ body ∧ ¬ ['<', '!'] <:+ body

end Comment

/-! ## The first tokens of a text -/

namespace Token

theorem lex_pair (rest : List Char) : lex ('-' :: '-' :: rest) = ⟨.doubleHyphen, ['-', '-']⟩ :: lex rest := by
  cases rest <;> rfl

theorem lex_hyphen (h : rest.head? ≠ some '-') : lex ('-' :: rest) = ⟨.text, ['-']⟩ :: lex rest := by
  cases rest with
  | nil => rfl
  | cons c rest =>
    have hc : c ≠ '-' := fun hc => h (congrArg some hc)
    have hnone : Form.hyphen.extend? c = none := by rw [Form.extend?, if_neg hc]
    rw [lex, show Form.ofChar '-' = .hyphen from rfl, lexFrom, hnone]
    rfl

theorem eq_of_begins_doubleHyphen (h : Begins (.ofChar c) .doubleHyphen) : c = '-' := by
  revert h
  unfold Form.ofChar
  split <;> intro h <;> cases h <;> first
    | rfl
    | contradiction

theorem lex_bang (rest : List Char) : lex ('!' :: rest) = ⟨.bang, ['!']⟩ :: lex rest :=
  lex_whole '!' .bang rfl

theorem lex_openAngle (rest : List Char) : lex ('<' :: rest) = ⟨.openAngle, ['<']⟩ :: lex rest :=
  lex_whole '<' .openAngle rfl

/-- A `>` is a token of its own. -/
theorem kindAt_lex_closeAngle : kindAt (lex text) 0 = .closeAngle ↔ ['>'] <+: text :=
  kindAt_lex_whole rfl (by decide)

theorem kindAt_lex_bang : kindAt (lex text) 0 = .bang ↔ ['!'] <+: text :=
  kindAt_lex_whole rfl (by decide)

/-- Two hyphens are a token where a token begins with the first. -/
theorem kindAt_lex_doubleHyphen : kindAt (lex text) 0 = .doubleHyphen ↔ ['-', '-'] <+: text := by
  constructor
  · intro h
    cases text with
    | nil => cases h
    | cons c rest =>
      obtain ⟨t, ts, ht, -, hbegins⟩ := lex_cons c rest
      rw [ht] at h
      rw [show t.kind = .doubleHyphen from h] at hbegins
      obtain rfl := eq_of_begins_doubleHyphen hbegins
      by_cases hpair : rest.head? = some '-'
      · obtain ⟨more, rfl⟩ := List.head?_eq_some_iff.mp hpair
        exact ⟨more, rfl⟩
      · rw [lex_hyphen hpair] at ht
        cases ht
        cases h
  · rintro ⟨rest, rfl⟩
    rw [List.cons_append, List.singleton_append, lex_pair]
    rfl

end Token

/-! ## What the tokens of a comment say about its characters -/

/-- Behind hyphens, a `>` ends the comment, also with one more hyphen in front. -/
theorem endsComment_lex :
    (endsComment (lex text)).isSome = true ↔ ['>'] <+: text ∨ ['-', '>'] <+: text := by
  cases text with
  | nil => simp [lex, endsComment]
  | cons c rest =>
    by_cases hc : c = '-'
    · subst hc
      by_cases hpair : rest.head? = some '-'
      · obtain ⟨more, rfl⟩ := List.head?_eq_some_iff.mp hpair
        simp [lex_pair, endsComment, List.cons_prefix_cons]
      · have hgt : kindAt (lex rest) 0 = .closeAngle ↔ ['>'] <+: rest := kindAt_lex_closeAngle
        simp [lex_hyphen hpair, endsComment, hgt, List.cons_prefix_cons]
    · obtain ⟨t, ts, ht, hhead, -⟩ := lex_cons c rest
      have hgt : kindAt (lex (c :: rest)) 0 = .closeAngle ↔ ['>'] <+: c :: rest :=
        kindAt_lex_closeAngle
      have htext : t.text ≠ ['-'] := by
        intro htext
        rw [htext] at hhead
        exact hc (Option.some.inj hhead).symm
      rw [ht] at hgt ⊢
      rw [← hgt]
      simp [endsComment, kindAt, htext, List.cons_prefix_cons, Ne.symm hc]

theorem kindAt_lex_bang_cons {kind : Kind} (h : ∀ {text}, kindAt (lex text) 0 = kind ↔ word <+: text) :
    kindAt (lex text) 0 = .bang ∧ kindAt (lex text) 1 = kind ↔ '!' :: word <+: text := by
  constructor
  · rintro ⟨hbang, hnext⟩
    obtain ⟨rest, rfl⟩ := kindAt_lex_bang.mp hbang
    rw [List.singleton_append, lex_bang] at hnext
    obtain ⟨more, rfl⟩ := h.mp hnext
    exact ⟨more, rfl⟩
  · rintro ⟨rest, rfl⟩
    rw [List.cons_append, lex_bang]
    exact ⟨rfl, h.mpr ⟨rest, rfl⟩⟩

theorem opensComment_cons (t : Token) (ts : List Token) : opensComment (t :: ts) = true ↔
    t.kind = .openAngle ∧ kindAt ts 0 = .bang ∧ kindAt ts 1 = .doubleHyphen := by
  match ts with
  | [] => simp [opensComment, kindAt]
  | [_] => simp [opensComment, kindAt]
  | _ :: _ :: _ => simp [opensComment, kindAt, and_assoc]

theorem breaksComment_cons (t : Token) (ts : List Token) : breaksComment (t :: ts) = true ↔
    t.kind = .doubleHyphen ∧ kindAt ts 0 = .bang ∧ kindAt ts 1 = .closeAngle := by
  match ts with
  | [] => simp [breaksComment, kindAt]
  | [_] => simp [breaksComment, kindAt]
  | _ :: _ :: _ => simp [breaksComment, kindAt, and_assoc]

/-- A token that is neither a `<` nor a pair of hyphens is passed over. -/
theorem closesComment_pass {t : Token} (hlt : t.kind ≠ .openAngle) (hpair : t.kind ≠ .doubleHyphen)
    (ts : List Token) : closesComment (t :: ts) = closesComment ts := by
  have hopen : ¬ opensComment (t :: ts) = true := fun h => hlt ((opensComment_cons t ts).mp h).1
  have hbreak : ¬ breaksComment (t :: ts) = true := fun h => hpair ((breaksComment_cons t ts).mp h).1
  rw [closesComment, if_neg hopen, if_neg hbreak, commentCloser?, if_neg hpair]
  rfl

theorem closesComment_openAngle (text : List Char) : closesComment (lex ('<' :: text)) = true ↔
    ¬ ['!', '-', '-'] <+: text ∧ closesComment (lex text) = true := by
  have hopen : opensComment (lex ('<' :: text)) = true ↔ ['!', '-', '-'] <+: text := by
    rw [lex_openAngle, opensComment_cons, ← kindAt_lex_bang_cons kindAt_lex_doubleHyphen]
    simp
  by_cases h : ['!', '-', '-'] <+: text
  · have htrue := hopen.mpr h
    rw [lex_openAngle] at htrue ⊢
    simp [closesComment, htrue, h]
  · have hfalse : ¬ opensComment (lex ('<' :: text)) = true := fun ho => h (hopen.mp ho)
    rw [lex_openAngle] at hfalse ⊢
    simp [closesComment, hfalse, h, commentCloser?, breaksComment_cons]

theorem closesComment_pair (text : List Char) : closesComment (lex ('-' :: '-' :: text)) = true ↔
    (['>'] <+: text ∨ ['-', '>'] <+: text) ∨
      ¬ ['!', '>'] <+: text ∧ closesComment (lex text) = true := by
  have hbreak : kindAt (lex text) 0 = .bang ∧ kindAt (lex text) 1 = .closeAngle ↔
      ['!', '>'] <+: text := kindAt_lex_bang_cons kindAt_lex_closeAngle
  rw [lex_pair, closesComment, ← endsComment_lex, ← hbreak]
  simp only [opensComment_cons, breaksComment_cons, commentCloser?]
  grind

/-- The form of a token without a part in comments. -/
def Form.Plain (form : Form) : Prop :=
  form ≠ .hyphen ∧ form.kind ≠ .openAngle ∧ form.kind ≠ .doubleHyphen

instance (form : Form) : Decidable form.Plain :=
  inferInstanceAs (Decidable (_ ∧ _))

theorem Form.Plain.extend {longer : Form} (h : form.Plain) (he : form.extend? c = some longer) :
    longer.Plain ∧ (ofChar c).Plain := by
  revert he
  unfold extend?
  cases form with
  | hyphen => exact absurd rfl h.1
  | whole => exact nofun
  | blanks | run =>
    dsimp only
    split <;> intro he <;> cases he
    next hc => exact ⟨h, hc ▸ h⟩
  | carriageReturn | asterisk | atSign =>
    dsimp only
    split <;> intro he <;> cases he
    next hc => subst hc; exact ⟨by decide, by decide⟩

/-- Where a token of several characters is passed over, so is each of its characters. -/
theorem closesComment_lexFrom (read : List Char) (h : form.Plain) :
    closesComment (lexFrom form read text) = closesComment (lex text) := by
  induction text generalizing form read with
  | nil => exact closesComment_pass h.2.1 h.2.2 []
  | cons c rest ih =>
    rw [lexFrom]
    cases he : form.extend? c with
    | none => exact closesComment_pass h.2.1 h.2.2 _
    | some longer =>
      obtain ⟨hlonger, hc⟩ := h.extend he
      exact (ih (c :: read) hlonger).trans (ih [c] hc).symm

theorem Form.plain_ofChar (hlt : c ≠ '<') (hhyphen : c ≠ '-') : (ofChar c).Plain := by
  unfold Plain
  refine ⟨fun h => hhyphen ?_, fun h => hlt (eq_of_kind_ofChar h), fun h => ?_⟩
  · revert h
    unfold ofChar
    split <;> first
      | exact fun _ => rfl
      | exact nofun
  · revert h
    unfold ofChar
    split <;> exact nofun

theorem closesComment_char (hlt : c ≠ '<') (hhyphen : c = '-' → text.head? ≠ some '-') :
    closesComment (lex (c :: text)) = closesComment (lex text) := by
  by_cases hc : c = '-'
  · subst hc
    rw [lex_hyphen (hhyphen rfl)]
    exact closesComment_pass (by decide) (by decide) _
  · exact closesComment_lexFrom [c] (Form.plain_ofChar hlt hc)

/-! ## Runs of hyphens -/

namespace Comment

/-- Texts are read a pair of hyphens at a time. -/
theorem pairs_induction {motive : List Char → Prop} (nil : motive [])
    (pair : ∀ rest, motive rest → motive ('-' :: '-' :: rest))
    (char : ∀ c rest, (c = '-' → rest.head? ≠ some '-') → motive rest → motive (c :: rest)) :
    ∀ text, motive text
  | [] => nil
  | [c] => char c [] nofun nil
  | c :: b :: rest =>
    if h : c = '-' ∧ b = '-' then h.1 ▸ h.2 ▸ pair rest (pairs_induction nil pair char rest)
    else char c (b :: rest) (fun hc hb => h ⟨hc, Option.some.inj hb⟩)
      (pairs_induction nil pair char (b :: rest))

theorem evenRun_nil : ¬ EvenRun [] := by
  rintro ⟨pairs, front, back, h, -⟩
  simp at h

theorem evenRun_pair (rest : List Char) :
    EvenRun ('-' :: '-' :: rest) ↔ ['!', '>'] <+: rest ∨ EvenRun rest := by
  constructor
  · rintro ⟨pairs, front, back, h, hfront⟩
    match front, h with
    | [], h =>
      cases pairs with
      | zero => exact .inl ⟨back, by simpa [List.replicate] using h.symm⟩
      | succ pairs =>
        refine .inr ⟨pairs, [], back, ?_, by simp⟩
        simpa [Nat.mul_add, List.replicate_succ] using h
    | [c], h =>
      obtain rfl : '-' = c := by simpa using congrArg List.head? h
      exact absurd (List.suffix_refl _) hfront
    | a :: b :: front, h =>
      simp only [List.cons_append, List.cons.injEq] at h
      obtain ⟨rfl, rfl, h⟩ := h
      refine .inr ⟨pairs, front, back, by simpa using h, fun hs => hfront ?_⟩
      exact hs.trans ⟨['-', '-'], rfl⟩
  · rintro (⟨back, rfl⟩ | ⟨pairs, front, back, rfl, hfront⟩)
    · exact ⟨0, [], back, rfl, by simp⟩
    · cases front with
      | nil => exact ⟨pairs + 1, [], back, by simp [Nat.mul_add, List.replicate_succ], by simp⟩
      | cons a front =>
        refine ⟨pairs, '-' :: '-' :: a :: front, back, rfl, ?_⟩
        simpa [List.suffix_cons_iff] using hfront

theorem evenRun_char (h : c = '-' → rest.head? ≠ some '-') : EvenRun (c :: rest) ↔ EvenRun rest := by
  constructor
  · rintro ⟨pairs, front, back, htext, hfront⟩
    cases front with
    | nil =>
      simp only [List.nil_append, List.replicate_succ, List.cons_append, List.cons.injEq] at htext
      exact absurd (by rw [htext.2]; rfl) (h htext.1)
    | cons a front =>
      simp only [List.cons_append, List.cons.injEq] at htext
      exact ⟨pairs, front, back, by simpa using htext.2, fun hs => hfront (hs.trans ⟨[a], rfl⟩)⟩
  · rintro ⟨pairs, front, back, rfl, hfront⟩
    refine ⟨pairs, c :: front, back, by simp, fun hs => ?_⟩
    cases front with
    | nil =>
      obtain rfl : '-' = c := by simpa [List.suffix_cons_iff] using hs
      exact h rfl (by simp [List.replicate_succ])
    | cons a front => exact hfront (by simpa [List.suffix_cons_iff] using hs)

/-- A text that has a word in it has a first place of it. -/
theorem exists_first (h : word <:+: text) :
    ∃ body rest, text = body ++ word ++ rest ∧ (word ≠ [] → ¬ word <:+: body) := by
  induction text with
  | nil =>
    obtain rfl := List.infix_nil.mp h
    exact ⟨[], [], rfl, fun hne => absurd rfl hne⟩
  | cons c text ih =>
    by_cases hprefix : word <+: c :: text
    · obtain ⟨rest, hrest⟩ := hprefix
      exact ⟨[], rest, hrest.symm, fun hne hin => hne (List.infix_nil.mp hin)⟩
    · obtain ⟨body, rest, rfl, hfirst⟩ := ih ((List.infix_cons_iff.mp h).resolve_left hprefix)
      refine ⟨c :: body, rest, rfl, fun hne hin => ?_⟩
      rcases List.infix_cons_iff.mp hin with hstart | hin
      · exact hprefix (hstart.trans ⟨word ++ rest, by simp⟩)
      · exact hfirst hne hin

theorem infix_cons_left (c : Char) (h : word <:+: text) : word <:+: c :: text :=
  List.infix_cons_iff.mpr (.inr h)

/-- Only at a closer is a comment closed. -/
theorem closer_infix_of_closes (h : closesComment (lex text) = true) : closer <:+: text := by
  induction text using pairs_induction with
  | nil => cases h
  | pair rest ih =>
    rcases (closesComment_pair rest).mp h with (⟨more, rfl⟩ | ⟨more, rfl⟩) | ⟨-, h⟩
    · exact ⟨[], more, rfl⟩
    · exact ⟨['-'], more, rfl⟩
    · exact infix_cons_left _ (infix_cons_left _ (ih h))
  | char c rest hpair ih =>
    by_cases hlt : c = '<'
    · subst hlt
      exact infix_cons_left _ (ih ((closesComment_openAngle rest).mp h).2)
    · rw [closesComment_char hlt hpair] at h
      exact infix_cons_left _ (ih h)

/-- What the closer begins with is not part of a word that ends in `>`. -/
theorem prefix_closer (a : Char) (body rest : List Char) :
    [a, '>'] <+: body ++ closer ++ rest ↔ [a, '>'] <+: body := by
  match body with
  | [] => simp [closer, List.cons_prefix_cons]
  | [b] => simp [closer, List.cons_prefix_cons]
  | b :: d :: body => simp [List.cons_prefix_cons]

theorem prefix_closeAngle (body rest : List Char) :
    ['>'] <+: body ++ closer ++ rest ↔ ['>'] <+: body := by
  cases body <;> simp [closer, List.cons_prefix_cons]

/-- The hyphens of an opener may be those of the closer. -/
theorem prefix_opener (body rest : List Char) :
    ['!', '-', '-'] <+: body ++ closer ++ rest ↔ ['!', '-', '-'] <+: body ++ ['-', '-'] := by
  match body with
  | [] => simp [closer, List.cons_prefix_cons]
  | [b] => simp [closer, List.cons_prefix_cons]
  | [b, d] => simp [closer, List.cons_prefix_cons]
  | b :: d :: e :: body => simp [List.cons_prefix_cons]

theorem opener_infix_cons (hlt : c ≠ '<') : opener <:+: c :: text ↔ opener <:+: text := by
  rw [List.infix_cons_iff, opener, List.cons_prefix_cons]
  exact ⟨fun h => h.resolve_left fun h => hlt h.1.symm, .inr⟩

/-- Up to the first closer, only an opener or an even run of hyphens is in the way. -/
theorem closesComment_iff (rest : List Char) (h : ¬ closer <:+: body) :
    closesComment (lex (body ++ closer ++ rest)) = true ↔
      ¬ opener <:+: body ++ ['-', '-'] ∧ ¬ EvenRun body := by
  have hempty : ¬ opener <:+: ['-', '-'] := by decide
  induction body using pairs_induction with
  | nil =>
    have hclosed : closesComment (lex ([] ++ closer ++ rest)) = true :=
      (closesComment_pair ('>' :: rest)).mpr (.inl (.inl ⟨rest, rfl⟩))
    exact iff_of_true hclosed ⟨hempty, evenRun_nil⟩
  | pair body ih =>
    have hbody : ¬ closer <:+: body := fun hb => h (infix_cons_left _ (infix_cons_left _ hb))
    have hgt : ¬ ['>'] <+: body := by
      rintro ⟨more, rfl⟩
      exact h ⟨[], more, rfl⟩
    have hhyphen : ¬ ['-', '>'] <+: body := by
      rintro ⟨more, rfl⟩
      exact h ⟨['-'], more, rfl⟩
    have hsplit := closesComment_pair (body ++ closer ++ rest)
    have hrest : closesComment (lex (body ++ closer ++ rest)) = true ↔
        ¬ opener <:+: body ++ ['-', '-'] ∧ ¬ EvenRun body := ih hbody
    rw [prefix_closeAngle, prefix_closer, prefix_closer, hrest] at hsplit
    simp only [List.cons_append] at hsplit ⊢
    rw [hsplit, evenRun_pair, opener_infix_cons (by decide), opener_infix_cons (by decide)]
    grind
  | char c body hpair ih =>
    have hbody : ¬ closer <:+: body := fun hb => h (infix_cons_left _ hb)
    have hrest : closesComment (lex (body ++ closer ++ rest)) = true ↔
        ¬ opener <:+: body ++ ['-', '-'] ∧ ¬ EvenRun body := ih hbody
    rw [evenRun_char hpair]
    by_cases hlt : c = '<'
    · subst hlt
      have hsplit := closesComment_openAngle (body ++ closer ++ rest)
      rw [prefix_opener, hrest] at hsplit
      simp only [List.cons_append] at hsplit ⊢
      rw [hsplit, List.infix_cons_iff, opener, List.cons_prefix_cons]
      grind
    · simp only [List.cons_append]
      rw [opener_infix_cons hlt, ← hrest]
      by_cases hlast : c = '-' ∧ body = []
      · -- the hyphen makes a pair with the first of the closer
        obtain ⟨rfl, rfl⟩ := hlast
        have hlong := (closesComment_pair ('-' :: '>' :: rest)).mpr (.inl (.inr ⟨rest, rfl⟩))
        exact iff_of_true hlong (hrest.mpr ⟨hempty, evenRun_nil⟩)
      · have hchar : c = '-' → (body ++ closer ++ rest).head? ≠ some '-' := by
          rintro rfl
          obtain ⟨b, more, rfl⟩ := List.exists_cons_of_ne_nil fun hnil => hlast ⟨rfl, hnil⟩
          exact hpair rfl
        rw [closesComment_char hlt hchar]

theorem suffix_append_iff (a b c : List Char) : a ++ c <:+ b ++ c ↔ a <:+ b :=
  (List.suffix_append_inj_of_length_eq rfl).trans (and_iff_left rfl)

/-- The hyphens of an opener may be behind the body. -/
theorem opener_infix_iff : opener <:+: body ++ ['-', '-'] ↔
    opener <:+: body ∨ ['<', '!', '-'] <:+ body ∨ ['<', '!'] <:+ body := by
  have hone : opener <:+ body ++ ['-'] ↔ ['<', '!', '-'] <:+ body :=
    suffix_append_iff ['<', '!', '-'] body ['-']
  have htwo : opener <:+ body ++ ['-', '-'] ↔ ['<', '!'] <:+ body :=
    suffix_append_iff ['<', '!'] body ['-', '-']
  rw [show body ++ ['-', '-'] = body ++ ['-'] ++ ['-'] by simp, List.infix_concat_iff,
    List.infix_concat_iff, hone, List.append_assoc, List.singleton_append, htwo]
  grind

/-! ## Recognition in characters -/

/-- Behind `<!--`, a comment is recognised by its body up to the first `-->`. -/
theorem commentAhead_iff (text : List Char) : commentAhead (lex (opener ++ text)) = true ↔
    ∃ body rest, text = body ++ closer ++ rest ∧ RecognisedBody body := by
  have hahead : commentAhead (lex (opener ++ text)) = true ↔
      (¬ ['>'] <+: text ∧ ¬ ['-', '>'] <+: text) ∧ closesComment (lex text) = true := by
    rw [← not_or, ← endsComment_lex]
    simp [opener, lex_openAngle, lex_bang, lex_pair, commentAhead, opensComment]
  rw [hahead]
  constructor
  · rintro ⟨⟨hgt, hhyphen⟩, hclose⟩
    obtain ⟨body, rest, rfl, hfirst⟩ := exists_first (closer_infix_of_closes hclose)
    have hbody := hfirst (by decide)
    obtain ⟨hopen, heven⟩ := (closesComment_iff rest hbody).mp hclose
    rw [prefix_closeAngle] at hgt
    rw [prefix_closer] at hhyphen
    rw [opener_infix_iff, not_or, not_or] at hopen
    exact ⟨body, rest, rfl, hgt, hhyphen, hopen.1, hbody, heven, hopen.2.1, hopen.2.2⟩
  · rintro ⟨body, rest, rfl, hgt, hhyphen, hopen, hbody, heven, hend⟩
    rw [prefix_closeAngle, prefix_closer, closesComment_iff rest hbody, opener_infix_iff, not_or,
      not_or]
    exact ⟨⟨hgt, hhyphen⟩, ⟨hopen, hend⟩, heven⟩

/-! ## Where recognition differs from HTML -/

/-- The hyphens that a text ends with. -/
theorem exists_front (text : List Char) :
    ∃ front n, text = front ++ List.replicate n '-' ∧ ¬ ['-'] <:+ front := by
  induction text with
  | nil => exact ⟨[], 0, rfl, by simp⟩
  | cons c text ih =>
    obtain ⟨front, n, rfl, hfront⟩ := ih
    cases front with
    | cons a front => exact ⟨c :: a :: front, n, rfl, by simpa [List.suffix_cons_iff] using hfront⟩
    | nil =>
      by_cases hc : c = '-'
      · exact ⟨[], n + 1, by rw [hc]; rfl, by simp⟩
      · exact ⟨[c], n, rfl, by simpa [List.suffix_cons_iff] using Ne.symm hc⟩

/-- Two hyphens before `!>` are the end of a run of two or more. -/
theorem exists_hyphenRun (h : ['-', '-', '!', '>'] <:+: body) : ∃ n, HyphenRun (n + 2) body := by
  obtain ⟨before, back, rfl⟩ := h
  obtain ⟨front, n, rfl, hfront⟩ := exists_front before
  exact ⟨n, front, back, by simp [← List.replicate_append_replicate], hfront⟩

theorem HyphenRun.two {n : Nat} (h : HyphenRun (n + 2) body) : ['-', '-', '!', '>'] <:+: body := by
  obtain ⟨front, back, rfl, -⟩ := h
  exact ⟨front ++ List.replicate n '-', back, by simp [← List.replicate_append_replicate]⟩

theorem HyphenRun.append {n : Nat} (h : HyphenRun n body) (rest : List Char) :
    HyphenRun n (body ++ rest) := by
  obtain ⟨front, back, rfl, hfront⟩ := h
  exact ⟨front, back ++ rest, by simp, hfront⟩

/-- The recognised bodies are those of HTML but for odd runs of three or more hyphens before `!>`,
which HTML refuses, and for `<!-->`, in which HTML sees no opener. -/
theorem recognised_iff_grammatical (hrun : ∀ pairs, ¬ HyphenRun (2 * pairs + 3) text)
    (hend : ¬ ['<', '!', '-', '-', '>'] <:+: text) :
    (∃ body rest, text = body ++ closer ++ rest ∧ RecognisedBody body) ↔ Grammatical text := by
  constructor
  · rintro ⟨body, rest, rfl, hgt, hhyphen, hopen, hclose, heven, hend, -⟩
    refine ⟨body, rest, rfl, hgt, hhyphen, hopen, hclose, fun htwo => ?_, hend⟩
    obtain ⟨n, hn⟩ := exists_hyphenRun htwo
    rcases Nat.mod_two_eq_zero_or_one n with hmod | hmod
    · exact heven ⟨n / 2, by rwa [show 2 * (n / 2) + 2 = n + 2 by omega]⟩
    · refine hrun (n / 2) ?_
      rw [show 2 * (n / 2) + 3 = n + 2 by omega, List.append_assoc]
      exact hn.append _
  · rintro ⟨body, rest, rfl, hgt, hhyphen, hopen, hclose, htwo, hend'⟩
    refine ⟨body, rest, rfl, hgt, hhyphen, hopen, hclose, fun ⟨pairs, heven⟩ => htwo heven.two,
      hend', ?_⟩
    rintro ⟨front, rfl⟩
    exact hend ⟨front, rest, by simp [closer]⟩

theorem grammatical_iff : Grammatical text ↔
    ∃ n ∈ List.range (text.length + 1), AllowedBody (text.take n) ∧ closer <+: text.drop n := by
  constructor
  · rintro ⟨body, rest, rfl, hbody⟩
    refine ⟨body.length, List.mem_range.mpr ?_, ?_, ?_⟩
    · rw [List.append_assoc, List.length_append]
      omega
    · simpa using hbody
    · simp
  · rintro ⟨n, -, hbody, rest, hrest⟩
    exact ⟨text.take n, rest, by rw [List.append_assoc, hrest, List.take_append_drop], hbody⟩

instance (text : List Char) : Decidable (Grammatical text) :=
  decidable_of_iff _ grammatical_iff.symm

/-- In characters, a comment is recognised by its body up to the first `-->`. With neither an odd run
of hyphens before `!>` nor a `<!-->` behind its opener, it is recognised as HTML asks for it. -/
theorem commentAhead_lex (text : List Char) :
    (commentAhead (lex (opener ++ text)) = true ↔
      ∃ body rest, text = body ++ closer ++ rest ∧ RecognisedBody body) ∧
    ((∀ pairs, ¬ HyphenRun (2 * pairs + 3) text) → ¬ ['<', '!', '-', '-', '>'] <:+: text →
      (commentAhead (lex (opener ++ text)) = true ↔ Grammatical text)) :=
  ⟨commentAhead_iff text, fun hrun hend =>
    (commentAhead_iff text).trans (recognised_iff_grammatical hrun hend)⟩

/-- A comment with hyphens in its body, and one hyphen more before its closer. -/
theorem commentAhead_lex_hyphens : Grammatical " a -- b --->".toList ∧
    commentAhead (lex "<!-- a -- b --->".toList) = true := by
  have hrun (pairs : Nat) : ¬ HyphenRun (2 * pairs + 3) " a -- b --->".toList := fun h =>
    absurd h.two (by decide +kernel)
  have hiff := (commentAhead_lex " a -- b --->".toList).2 hrun (by decide +kernel)
  have htext : Grammatical " a -- b --->".toList := by decide +kernel
  exact ⟨htext, hiff.mpr htext⟩

/-- Three hyphens before `!>` are let pass, and a body that ends with `<!` is refused. -/
theorem commentAhead_ne_grammatical :
    (¬ Grammatical " a ---!> -->".toList ∧
      commentAhead (lex "<!-- a ---!> -->".toList) = true) ∧
    (Grammatical " a <!-->".toList ∧ commentAhead (lex "<!-- a <!-->".toList) = false) := by
  decide +kernel

end Comment

end TemplateMarkup
