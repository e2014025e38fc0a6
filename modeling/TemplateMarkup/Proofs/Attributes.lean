import TemplateMarkup.Proofs.Scanning

/-! # Attributes are read along paths

The loop over attributes hands over code without accepting first what a call
before has left held, so two calls can take turns in moving the cursor and
putting it back. The loop comes to an end if each call accepts something or
costs the code parser patience, or if no call leaves anything held. -/

namespace TemplateMarkup.Cursor

variable {σ : Type} {code : EmbeddedCode σ} {ok : σ → Prop} {strict : Prop} {base : List Event}
  {c₀ c d : Cursor σ} {ms₀ ms : List Marker} {gain : Nat}

/-! ## Accepting a run of tokens -/

theorem Reaches.bumpWhile_gain {test : Token → Bool} (h : Reaches strict base c₀ ms₀ gain c ms)
    {t : Token} {rest : List Token} (ha : c.ahead = t :: rest) (ht : test t = true) :
    Reaches strict base c₀ ms₀ (gain + 1) (c.bumpWhile test) ms := by
  unfold Cursor.bumpWhile
  have hlen : c.runLength test 0 = (rest.takeWhile test).length + 1 := by
    simp [runLength, ha, ht]
  rw [hlen]
  exact h.bumpN_gain _ (by simp [ha])

/-! ## Attributes -/

theorem endsAttributeName_iff (kind : Kind) : kind.endsAttributeName = true ↔
    kind.isTrivia = true ∨ kind = .equals ∨ kind = .closeAngle ∨ kind = .openAngle ∨
      kind = .slash ∨ kind = .doubleQuote ∨ kind = .singleQuote ∨ kind = .transition ∨
      kind = .commentOpen ∨ kind = .endOfInput := by
  cases kind <;> decide

/-- Where the loop over attributes finds nothing else, an attribute's name begins. -/
theorem endsAttributeName_eq_false {kind : Kind} (ht : kind.isTrivia = false)
    (h1 : kind ≠ .endOfInput) (h2 : kind ≠ .closeAngle) (h3 : kind ≠ .openAngle)
    (h4 : kind ≠ .slash) (h5 : kind ≠ .transition) (h6 : kind ≠ .commentOpen)
    (h7 : kind ≠ .equals) (h8 : kind ≠ .doubleQuote) (h9 : kind ≠ .singleQuote) :
    kind.endsAttributeName = false := by
  rw [← Bool.not_eq_true, endsAttributeName_iff, ht]
  simp only [Bool.false_eq_true, false_or]
  exact fun h => by rcases h with h | h | h | h | h | h | h | h | h <;> contradiction

theorem Reaches.attributeValue (hl : code.Stepwise strict ok)
    (hok : ok (c.attributeValue code).2.host) (h : Reaches strict base c₀ ms₀ gain c ms) :
    Reaches strict base c₀ ms₀ gain (c.attributeValue code).2 ms := by
  revert hok
  unfold Cursor.attributeValue
  dsimp only
  split
  · intro hok
    rw [host_eat, host_complete] at hok
    exact ((h.bump.start.skipTo hl c.current hok).complete .attributeValue).eat c.current
  · intro hok
    rw [host_complete] at hok
    exact (h.start.skipUntil hl _ hok).complete .attributeValue

theorem held_attributeValue (hl : code.Stepwise strict ok) (h : Sound strict base ms c)
    (hok : ok (c.attributeValue code).2.host) : (c.attributeValue code).2.held = [] := by
  revert hok
  unfold Cursor.attributeValue
  dsimp only
  split
  · intro hok
    rw [host_eat, host_complete] at hok
    have hscan := ((Reaches.refl h).bump.start.skipTo hl c.current hok).sound
    exact held_eat ((held_complete _ _ _).trans (held_scanFrom hscan.fault)) _
  · intro hok
    rw [host_complete] at hok
    have hscan := ((Reaches.refl h).start.skipUntil hl _ hok).sound
    exact (held_complete _ _ _).trans (held_scanFrom hscan.fault)

/-- An attribute has a name, so something is accepted. -/
theorem Reaches.readAttribute (hl : code.Stepwise strict ok) (hok : ok (c.readAttribute code).2.host)
    (h : Reaches strict base c₀ ms₀ gain c ms) {t : Token} {rest : List Token}
    (ha : c.ahead = t :: rest) (ht : t.kind.endsAttributeName = false) :
    Reaches strict base c₀ ms₀ (gain + 1) (c.readAttribute code).2 ms ∧
      (c.readAttribute code).2.held = [] := by
  have hahead := (ahead_start c).trans ha
  have hname : Reaches strict base c₀ ms₀ (gain + 1)
      (c.start.2.bumpWhile (!·.kind.endsAttributeName)) (c.start.1 :: ms) :=
    h.start.bumpWhile_gain hahead (by simp [ht])
  have hheld : (c.start.2.bumpWhile (!·.kind.endsAttributeName)).held = [] := by
    have hlen : c.start.2.runLength (!·.kind.endsAttributeName) 0 =
        (rest.takeWhile (!·.kind.endsAttributeName)).length + 1 := by
      simp [runLength, ha, ht]
    rw [Cursor.bumpWhile, hlen]
    exact held_bumpN (held_bump hahead) _
  revert hok
  unfold Cursor.readAttribute
  dsimp only
  generalize c.start.2.bumpWhile (!·.kind.endsAttributeName) = d at hname hheld ⊢
  generalize d.runLength (·.kind == .whitespace) 0 = blanks
  split
  · intro hok
    rw [host_complete] at hok
    have hvalue := (hname.bumpN (blanks + 1)).bumpWhile (·.kind == .whitespace)
    exact ⟨(hvalue.attributeValue hl hok).complete .attributeBlock,
      (held_complete _ _ _).trans (held_attributeValue hl hvalue.sound hok)⟩
  · intro _
    exact ⟨hname.complete .attributeBlock, (held_complete _ _ _).trans hheld⟩

/-! ## Rounds of the loop -/

/-- What one round of the loop over attributes can do where no spacing comes next. -/
inductive AttributeRound (code : EmbeddedCode σ) (c : Cursor σ) : Cursor σ → Prop
  | token : c.ahead ≠ [] → c.current ≠ .closeAngle → AttributeRound code c c.bump
  | block : c.current = .transition → AttributeRound code c (code.block (c.flush .literal))
  | comment : c.current = .commentOpen → AttributeRound code c (code.comment (c.flush .literal))
  | named {t : Token} {rest : List Token} : c.ahead = t :: rest →
      t.kind.endsAttributeName = false → AttributeRound code c (c.readAttribute code).2

/-- The loop ends behind the spacing, or one round takes it further. -/
theorem attributesFrom_succ (code : EmbeddedCode σ) (bound : Nat) (c : Cursor σ) :
    (attributesFrom code (bound + 1) c).2 = c.bumpWhile (·.kind.isTrivia) ∨
      ∃ d, AttributeRound code (c.bumpWhile (·.kind.isTrivia)) d ∧
        (attributesFrom code (bound + 1) c).2 = (attributesFrom code bound d).2 := by
  have htrivia {t rest} := @test_of_ahead_bumpWhile σ c (·.kind.isTrivia) t rest
  rw [attributesFrom]
  dsimp only
  generalize c.bumpWhile (·.kind.isTrivia) = d at htrivia ⊢
  split
  · exact .inl rfl
  · exact .inl rfl
  · exact .inl rfl
  · next hk =>
    split
    · exact .inl rfl
    · exact .inr ⟨_, .token (ahead_ne_nil_of_nth hk (by decide)) (by rw [hk]; decide), rfl⟩
  · next hk => exact .inr ⟨_, .block hk, rfl⟩
  · next hk => exact .inr ⟨_, .comment hk, rfl⟩
  iterate 3
    · next hk => exact .inr ⟨_, .token (ahead_ne_nil_of_nth hk (by decide)) (by rw [hk]; decide), rfl⟩
  · next h1 h2 h3 h4 h5 h6 h7 h8 h9 =>
    obtain ⟨t, rest, ha⟩ : ∃ t rest, d.ahead = t :: rest := by
      refine List.exists_cons_of_ne_nil fun ha => h1 ?_
      simp [current, nth, Token.kindAt, ha]
    rw [current_cons ha] at h1 h2 h3 h4 h5 h6 h7 h8 h9
    exact .inr ⟨_, .named ha
      (endsAttributeName_eq_false (htrivia ha) h1 h2 h3 h4 h5 h6 h7 h8 h9), rfl⟩

theorem AttributeRound.ahead_ne_nil (h : AttributeRound code c d) : c.ahead ≠ [] := by
  cases h with
  | token hne => exact hne
  | block hk | comment hk => exact ahead_ne_nil_of_nth hk (by decide)
  | named ha => simp [ha]

/-- Where each round keeps a property and makes a rank smaller, the loop ends with the property. -/
theorem attributesFrom_ends {P : Cursor σ → Prop} {rank : Cursor σ → Nat}
    (hr : code.Respects fun s t => ok t → ok s)
    (hround : ∀ {c d}, P c → AttributeRound code (c.bumpWhile (·.kind.isTrivia)) d → ok d.host →
      P d ∧ rank d < rank c) {bound : Nat} (hb : rank c < bound)
    (hok : ok (attributesFrom code bound c).2.host) (hc : P c) :
    ∃ d, P d ∧ (attributesFrom code bound c).2 = d.bumpWhile (·.kind.isTrivia) := by
  induction bound generalizing c with
  | zero => exact absurd hb (Nat.not_lt_zero _)
  | succ bound ih =>
    rcases attributesFrom_succ code bound c with hend | ⟨d, hd, hgo⟩
    · exact ⟨c, hc, hend⟩
    · rw [hgo] at hok ⊢
      obtain ⟨hP, hlt⟩ := hround hc hd (hr.attributesFrom bound d hok)
      exact ih (by omega) hok hP

theorem AttributeRound.reaches (hl : code.Stepwise strict ok) (hr : AttributeRound code c d)
    (hok : ok d.host) (h : Reaches strict base c₀ ms₀ gain c ms) :
    Reaches strict base c₀ ms₀ gain d ms := by
  cases hr with
  | token => exact h.bump
  | block => exact (h.flush .literal).codeBlock hl hok
  | comment => exact (h.flush .literal).codeComment hl hok
  | named ha ht => exact (h.readAttribute hl hok ha ht).1.weaken (Nat.le_succ _)

end TemplateMarkup.Cursor

namespace TemplateMarkup.EmbeddedCode

open Cursor

variable {σ : Type}

/-- Each call either accepts something or costs patience. -/
structure Patient (code : EmbeddedCode σ) (strict : Prop) (ok : σ → Prop) : Prop
    extends code.Stepwise strict ok where
  patience : code.Respects fun s t => code.patience t ≤ code.patience s
  block_claims {base ms c} : Sound strict base ms c → c.ahead ≠ [] → ok (code.block c).host →
    code.patience (code.block c).host < code.patience c.host ∨ (code.block c).unclaimed < c.unclaimed
  comment_claims {base ms c} : Sound strict base ms c → c.ahead ≠ [] → ok (code.comment c).host →
    code.patience (code.comment c).host < code.patience c.host ∨
      (code.comment c).unclaimed < c.unclaimed

/-- A call that begins with nothing held leaves nothing held. -/
structure Tidy (code : EmbeddedCode σ) (strict : Prop) (ok : σ → Prop) : Prop
    extends code.Stepwise strict ok where
  block_held {base ms c} : Sound strict base ms c → c.held = [] →
    ok (code.parseBlock c).host → (code.parseBlock c).held = []
  comment_held {base ms c} : Sound strict base ms c → c.held = [] →
    ok (code.parseComment c).host → (code.parseComment c).held = []

variable {code : EmbeddedCode σ} {ok : σ → Prop} {strict : Prop} {base : List Event}
  {c d : Cursor σ} {ms : List Marker}

/-! ## Patience -/

/-- How many rounds the loop over attributes can still take. -/
def attributeMeasure (code : EmbeddedCode σ) (c : Cursor σ) : Nat :=
  code.patience c.host * (c.unclaimed + 1) + c.unclaimed

theorem attributeMeasure_lt_budget (code : EmbeddedCode σ) (c : Cursor σ) :
    code.attributeMeasure c < code.budget c := by
  have hbudget : code.budget c =
      code.patience c.host * (2 * c.unclaimed + 2) + (2 * c.unclaimed + 2) :=
    Nat.succ_mul _ _
  have hmul : code.patience c.host * (c.unclaimed + 1) ≤
      code.patience c.host * (2 * c.unclaimed + 2) := Nat.mul_le_mul_left _ (by omega)
  unfold attributeMeasure
  omega

theorem attributeMeasure_le (hp : code.patience d.host ≤ code.patience c.host)
    (hu : d.unclaimed ≤ c.unclaimed) : code.attributeMeasure d ≤ code.attributeMeasure c :=
  Nat.add_le_add (Nat.mul_le_mul hp (by omega)) hu

theorem attributeMeasure_lt (hp : code.patience d.host ≤ code.patience c.host)
    (hu : d.unclaimed ≤ c.unclaimed)
    (h : code.patience d.host < code.patience c.host ∨ d.unclaimed < c.unclaimed) :
    code.attributeMeasure d < code.attributeMeasure c := by
  rcases h with h | h
  · have hmul : (code.patience d.host + 1) * (d.unclaimed + 1) ≤
        code.patience c.host * (c.unclaimed + 1) := Nat.mul_le_mul h (by omega)
    rw [Nat.succ_mul] at hmul
    unfold attributeMeasure
    omega
  · exact Nat.add_lt_add_of_le_of_lt (Nat.mul_le_mul hp (by omega)) h

/-- A round accepts something or costs patience. -/
theorem Patient.measure_lt (hl : code.Patient strict ok) (h : Sound strict base ms c)
    (hr : AttributeRound code c d) (hok : ok d.host) :
    code.attributeMeasure d < code.attributeMeasure c := by
  have hle := (hr.reaches hl.toStepwise hok (Reaches.refl h)).gained
  have hf := (Reaches.refl h).flush .literal
  have hflush : (c.flush .literal).ahead ≠ [] := by simpa using hr.ahead_ne_nil
  cases hr with
  | token hne =>
    exact attributeMeasure_lt (by simp) (by omega) (.inr (h.unclaimed_bump_lt hne))
  | block =>
    have hp := hl.patience.block (c.flush .literal)
    have hclaim := hl.block_claims hf.sound hflush hok
    rw [host_flush] at hp hclaim
    rw [unclaimed_flush] at hclaim
    exact attributeMeasure_lt hp (by omega) hclaim
  | comment =>
    have hp := hl.patience.comment (c.flush .literal)
    have hclaim := hl.comment_claims hf.sound hflush hok
    rw [host_flush] at hp hclaim
    rw [unclaimed_flush] at hclaim
    exact attributeMeasure_lt hp (by omega) hclaim
  | named ha ht =>
    have hgain := ((Reaches.refl h).readAttribute hl.toStepwise hok ha ht).1.gained
    exact attributeMeasure_lt (hl.patience.readAttribute c) (by omega) (.inr (by omega))

theorem Patient.lawful (hl : code.Patient strict ok) : code.Lawful strict ok where
  toStepwise := hl.toStepwise
  attributes {base ms c} h _ hok := by
    have hround {d e : Cursor σ} (hd : Reaches strict base c ms 0 d ms)
        (hr : AttributeRound code (d.bumpWhile (·.kind.isTrivia)) e) (hok : ok e.host) :
        Reaches strict base c ms 0 e ms ∧ code.attributeMeasure e < code.attributeMeasure d := by
      have hspacing := hd.bumpWhile (·.kind.isTrivia)
      have hlt := hl.measure_lt hspacing.sound hr hok
      have hle := ((Reaches.refl hd.sound).bumpWhile (·.kind.isTrivia)).gained
      refine ⟨hr.reaches hl.toStepwise hok hspacing, Nat.lt_of_lt_of_le hlt ?_⟩
      exact attributeMeasure_le (by simp) (by omega)
    obtain ⟨d, hd, heq⟩ := attributesFrom_ends hl.respects hround (attributeMeasure_lt_budget code c)
      hok (Reaches.refl h)
    rw [Cursor.attributes, heq]
    exact (hd.bumpWhile _).path

/-! ## Nothing left held -/

theorem held_ensureProgress (hh : c.held = []) (before : Nat) :
    (ensureProgress before c).held = [] := by
  unfold ensureProgress
  split
  · rw [held_flush]
    exact held_bump_of_held hh
  · exact hh

/-- With nothing held a round accepts something and leaves nothing held. -/
theorem Tidy.unclaimed_lt (hl : code.Tidy strict ok) (h : Sound strict base ms c) (hh : c.held = [])
    (hr : AttributeRound code c d) (hok : ok d.host) : d.held = [] ∧ d.unclaimed < c.unclaimed := by
  have hf := ((Reaches.refl h).flush .literal).sound
  have hheld := (held_flush c .literal).trans hh
  have hne : (c.flush .literal).ahead ≠ [] := by simpa using hr.ahead_ne_nil
  cases hr with
  | token hne => exact ⟨held_bump_of_held hh, h.unclaimed_bump_lt hne⟩
  | block =>
    have hread := hl.unread_block hf hheld hne hok
    have hokb := hok
    rw [EmbeddedCode.block, Respects.host_ensureProgress] at hokb
    have hnone : (code.block (c.flush .literal)).held = [] :=
      held_ensureProgress (hl.block_held hf hheld hokb) _
    refine ⟨hnone, ?_⟩
    rwa [unclaimed_of_held hnone, unclaimed_of_held hh, ← unread_flush c .literal]
  | comment =>
    have hread := hl.unread_comment hf hheld hne hok
    have hokc := hok
    rw [EmbeddedCode.comment, Respects.host_ensureProgress] at hokc
    have hnone : (code.comment (c.flush .literal)).held = [] :=
      held_ensureProgress (hl.comment_held hf hheld hokc) _
    refine ⟨hnone, ?_⟩
    rwa [unclaimed_of_held hnone, unclaimed_of_held hh, ← unread_flush c .literal]
  | named ha ht =>
    obtain ⟨hgain, hnone⟩ := (Reaches.refl h).readAttribute hl.toStepwise hok ha ht
    have hlt := hgain.gained
    exact ⟨hnone, by omega⟩

theorem Tidy.lawful (hl : code.Tidy strict ok) : code.Lawful strict ok where
  toStepwise := hl.toStepwise
  attributes {base ms c} h hh hok := by
    have hround {d e : Cursor σ} (hd : Reaches strict base c ms 0 d ms ∧ d.held = [])
        (hr : AttributeRound code (d.bumpWhile (·.kind.isTrivia)) e) (hok : ok e.host) :
        (Reaches strict base c ms 0 e ms ∧ e.held = []) ∧ e.unclaimed < d.unclaimed := by
      have hspacing := hd.1.bumpWhile (·.kind.isTrivia)
      obtain ⟨hnone, hlt⟩ := hl.unclaimed_lt hspacing.sound (held_bumpN hd.2 _) hr hok
      have hle := ((Reaches.refl hd.1.sound).bumpWhile (·.kind.isTrivia)).gained
      exact ⟨⟨hr.reaches hl.toStepwise hok hspacing, hnone⟩, by omega⟩
    have hb : c.unclaimed < code.budget c := by
      have hbudget : 2 * c.unclaimed + 2 ≤ code.budget c :=
        Nat.le_mul_of_pos_left _ (Nat.succ_pos _)
      omega
    obtain ⟨d, hd, heq⟩ := attributesFrom_ends hl.respects hround hb hok ⟨Reaches.refl h, hh⟩
    rw [Cursor.attributes, heq]
    exact (hd.1.bumpWhile _).path

end TemplateMarkup.EmbeddedCode

namespace TemplateMarkup.Cursor

variable {σ : Type} {code : EmbeddedCode σ} {ok : σ → Prop} {strict : Prop} {base : List Event}
  {c₀ c : Cursor σ} {ms₀ ms : List Marker} {gain : Nat}

theorem Reaches.attributes (hl : code.Lawful strict ok) (hh : c.held = [])
    (hok : ok (c.attributes code).2.host) (h : Reaches strict base c₀ ms₀ gain c ms) :
    Reaches strict base c₀ ms₀ gain (c.attributes code).2 ms :=
  h.follow (hl.attributes h.sound hh hok)

end TemplateMarkup.Cursor
