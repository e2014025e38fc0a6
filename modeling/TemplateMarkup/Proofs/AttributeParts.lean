import TemplateMarkup.Proofs.TagParts

/-! # Reading written attributes

An attribute that is written as a blank, a name, an equals sign and a value in
double quotes is read as one node, and a row of such attributes by one round of
the loop each. -/

namespace TemplateMarkup.Cursor

/-- An attribute as it is written, by its tokens. -/
structure WrittenAttribute where
  blank : Token
  key : List Token
  equals : Token
  opener : Token
  value : List Token
  closer : Token

namespace WrittenAttribute

variable (a : WrittenAttribute)

/-- The tokens behind the blank. -/
def body : List Token := a.key ++ a.equals :: a.opener :: a.value ++ [a.closer]

def tokens : List Token := a.blank :: a.body

def pieces : List Piece :=
  [.leaf a.blank, .part .attributeBlock (a.key.map .leaf ++ .leaf a.equals :: .leaf a.opener ::
    .part .attributeValue (a.value.map .leaf) :: [.leaf a.closer])]

/-- The tokens have the kinds that make an attribute of them. -/
structure Fits : Prop where
  blank : a.blank.kind = .whitespace
  key_ne_nil : a.key ≠ []
  key : ∀ t ∈ a.key, t.kind.endsAttributeName = false
  equals : a.equals.kind = .equals
  opener : a.opener.kind = .doubleQuote
  value : ∀ t ∈ a.value, Passes .doubleQuote t ∧ t.text ≠ []
  closer : a.closer.kind = .doubleQuote

end WrittenAttribute

variable {σ : Type} {code : EmbeddedCode σ} {c d : Cursor σ} {used rest : List Token}
  {a : WrittenAttribute} {t : Token}

/-- A value with its quotes. -/
theorem Takes.attributeValue (code : EmbeddedCode σ) (ha : a.Fits) (hh : c.held = [])
    (hflag : c.context.ephemeralLineEnding = false)
    (hahead : c.ahead = a.opener :: a.value ++ a.closer :: rest) :
    Takes (a.opener :: a.value ++ [a.closer])
      [.leaf a.opener, .part .attributeValue (a.value.map .leaf), .leaf a.closer] c
      (c.attributeValue code).2 := by
  have hcurrent : c.current = .doubleQuote := (current_cons hahead).trans ha.opener
  have hopen : Takes [a.opener] [.leaf a.opener] c c.bump := .bump hh hahead
  have hvalue : Takes a.value (a.value.map .leaf) c.bump.start.2
      (c.bump.start.2.skipTo code .doubleQuote) := by
    refine Takes.skipTo code ((held_start _).trans hopen.held) ?_ (fun t ht => (ha.value t ht).2)
      ((ahead_start _).trans (hopen.ahead_eq hahead)) (fun t ht => (ha.value t ht).1) ?_
    · have hcontext : c.bump.start.2.context = c.context :=
        (context_flush _ _).trans (context_bump c)
      rw [hcontext, hflag]
    · rintro t ⟨⟩
      exact ha.closer
  have hnode := hopen.trans (hvalue.node .attributeValue (by decide))
  have hnext := hnode.ahead_eq hahead
  obtain ⟨heat, hclose⟩ := Takes.eat_true hnode.held hnext ha.closer
  have hall := hnode.trans hclose
  rw [Cursor.attributeValue]
  dsimp only
  rw [hcurrent, if_pos (.inl rfl), if_pos (.inl rfl), if_pos (.inl rfl), heat]
  exact hall

/-- An attribute without the blank in front of it. -/
theorem Takes.readAttribute (code : EmbeddedCode σ) (ha : a.Fits) (hh : c.held = [])
    (hflag : c.context.ephemeralLineEnding = false) (hahead : c.ahead = a.body ++ rest) :
    Takes a.body [.part .attributeBlock (a.key.map .leaf ++ .leaf a.equals :: .leaf a.opener ::
      .part .attributeValue (a.value.map .leaf) :: [.leaf a.closer])] c
      (c.readAttribute code).2 := by
  have hstart : c.start.2.ahead =
      a.key ++ a.equals :: a.opener :: (a.value ++ a.closer :: rest) := by
    rw [ahead_start, hahead]
    simp [WrittenAttribute.body]
  have hkey : Takes a.key (a.key.map .leaf) c.start.2
      (c.start.2.bumpWhile (!·.kind.endsAttributeName)) := by
    refine .bumpWhile ((held_start c).trans hh) hstart (fun t ht => ?_) ?_
    · rw [ha.key t ht]
      rfl
    · rintro t ⟨⟩
      rw [ha.equals]
      rfl
  have hequals := hkey.ahead_eq hstart
  generalize hd : c.start.2.bumpWhile (!·.kind.endsAttributeName) = d at hkey hequals
  have hblanks : d.runLength (·.kind == .whitespace) 0 = 0 := by
    simp [runLength, hequals, ha.equals]
  have hsign : d.nth 0 = .equals := (current_cons hequals).trans ha.equals
  have hbump : Takes [a.equals] [.leaf a.equals] d d.bump := .bump hkey.held hequals
  have hopener := hbump.ahead_eq hequals
  have hnone : d.bump.bumpWhile (·.kind == .whitespace) = d.bump := by
    refine bumpWhile_of_head fun t ht => ?_
    rw [hopener] at ht
    cases ht
    rw [ha.opener]
    rfl
  have hcontext : d.bump.context = c.context :=
    (context_bump d).trans (hkey.context_eq.trans (context_flush c _))
  have hvalue := Takes.attributeValue code ha hbump.held (by rw [hcontext, hflag]) hopener
  have hall := ((hkey.trans hbump).trans hvalue).node .attributeBlock (by decide)
  have hresult : (c.readAttribute code).2 =
      (d.bump.attributeValue code).2.complete c.start.1 .attributeBlock := by
    rw [Cursor.readAttribute]
    dsimp only
    rw [hd, hblanks, if_pos hsign]
    exact congrArg (fun e => (e.attributeValue code).2.complete c.start.1 .attributeBlock) hnone
  rw [hresult]
  simpa [WrittenAttribute.body] using hall

theorem attributesFrom_default {bound : Nat} (hnone : c.bumpWhile (·.kind.isTrivia) = d)
    (hahead : d.ahead = t :: rest) (ht : t.kind.endsAttributeName = false) :
    attributesFrom code (bound + 1) c =
      ((d.readAttribute code).1 :: (attributesFrom code bound (d.readAttribute code).2).1,
        (attributesFrom code bound (d.readAttribute code).2).2) := by
  have hcurrent : d.current = t.kind := current_cons hahead
  rw [attributesFrom, hnone]
  dsimp only
  revert ht
  rw [← hcurrent]
  generalize d.current = kind
  cases kind <;> first
    | exact fun h => absurd h (by decide)
    | exact fun _ => rfl

theorem attributesFrom_written (code : EmbeddedCode σ) {as : List WrittenAttribute}
    (has : ∀ a ∈ as, a.Fits) (hh : c.held = []) (hflag : c.context.ephemeralLineEnding = false)
    (hahead : c.ahead = as.flatMap WrittenAttribute.tokens ++ rest) (hend : AtTagEnd rest)
    {bound : Nat} (hb : as.length < bound) :
    Takes (as.flatMap WrittenAttribute.tokens) (as.flatMap WrittenAttribute.pieces) c
      (attributesFrom code bound c).2 := by
  induction as generalizing c bound with
  | nil =>
    obtain ⟨bound, rfl⟩ := Nat.exists_eq_add_of_lt hb
    rw [List.length_nil, Nat.zero_add, attributesFrom_atTagEnd (by rwa [hahead])]
    exact Takes.refl hh
  | cons a as ih =>
    cases bound with
    | zero => exact absurd hb (Nat.not_lt_zero _)
    | succ bound =>
      have hfits := has a (List.mem_cons_self ..)
      have hline : c.ahead =
          [a.blank] ++ (a.body ++ (as.flatMap WrittenAttribute.tokens ++ rest)) := by
        simp [hahead, WrittenAttribute.tokens]
      obtain ⟨k, key, hkey⟩ := List.exists_cons_of_ne_nil hfits.key_ne_nil
      have hk : k.kind.endsAttributeName = false := hfits.key k (by rw [hkey]; exact List.mem_cons_self ..)
      have hblank : Takes [a.blank] [.leaf a.blank] c (c.bumpWhile (·.kind.isTrivia)) := by
        refine .bumpWhile hh hline ?_ ?_
        · intro t ht
          rw [List.mem_singleton.mp ht, hfits.blank]
          rfl
        · rw [WrittenAttribute.body, hkey]
          rintro t ⟨⟩
          revert hk
          generalize k.kind = kind
          cases kind <;> decide
      have hbody := hblank.ahead_eq hline
      have hcontext := hblank.context_eq
      have hread := Takes.readAttribute code hfits hblank.held (by rw [hcontext, hflag]) hbody
      have hrest := ih (fun b hb => has b (List.mem_cons_of_mem a hb)) hread.held
        (by rw [hread.context_eq, hcontext, hflag]) (hread.ahead_eq hbody)
        (Nat.lt_of_succ_lt_succ hb)
      have hfirst : (c.bumpWhile (·.kind.isTrivia)).ahead = k :: (key ++ a.equals :: a.opener ::
          a.value ++ [a.closer] ++ (as.flatMap WrittenAttribute.tokens ++ rest)) := by
        simp [hbody, WrittenAttribute.body, hkey]
      rw [attributesFrom_default rfl hfirst hk]
      exact (hblank.trans hread).trans hrest

/-- A row of attributes up to the end of the tag. -/
theorem Takes.attributes (code : EmbeddedCode σ) {as : List WrittenAttribute}
    (has : ∀ a ∈ as, a.Fits) (hh : c.held = []) (hflag : c.context.ephemeralLineEnding = false)
    (hne : ∀ t ∈ as.flatMap WrittenAttribute.tokens, t.text ≠ [])
    (hahead : c.ahead = as.flatMap WrittenAttribute.tokens ++ rest) (hend : AtTagEnd rest) :
    Takes (as.flatMap WrittenAttribute.tokens) (as.flatMap WrittenAttribute.pieces) c
      (c.attributes code).2 := by
  have hcount : as.length ≤ (as.flatMap WrittenAttribute.tokens).length :=
    length_le_flatMap (fun _ => Nat.le_add_left 1 _) as
  have hlen := length_le_unclaimed hahead hne
  have hbudget : 2 * c.unclaimed + 2 ≤ code.budget c := Nat.le_mul_of_pos_left _ (Nat.succ_pos _)
  exact attributesFrom_written code has hh hflag hahead hend (by omega)

end TemplateMarkup.Cursor
