import TemplateMarkup.Markup.Special
import TemplateMarkup.Proofs.Growth
import TemplateMarkup.Proofs.Scanning

/-! # Scans add no tag block

A scan accepts tokens and calls the code parser, so with code that encloses what
it adds no tag block comes from it. Where it ends without a fault it stands at
the place it looked for, or at the end of the source, and holds nothing. -/

namespace TemplateMarkup.Cursor

open Piece

variable {σ : Type} {code : EmbeddedCode σ} {c d : Cursor σ} {place : LinePlace} {bound : Nat}

/-! ## What a scan adds -/

theorem grows_ephemeralLineEnd (hp : c.pending = []) : Grows Free c c.ephemeralLineEnd.2 := by
  unfold ephemeralLineEnd
  generalize (if c.at? .whitespace then 1 else 0) = blanks
  dsimp only
  split
  · exact (Accepts.bumpN c _).flush hp (by decide) fun ts => free_part (by decide) (free_leaves ts)
  · exact .refl c

/-- What is held is accepted first, unless blanks that begin a line go with the code. -/
theorem adds_beforeCode (place : LinePlace) (c : Cursor σ) :
    ∃ ps, Adds ps c (c.beforeCode place) ∧ (∀ p ∈ ps, p.Free) ∧
      (place ≠ .indent → ps = c.held.reverse.map leaf) := by
  unfold beforeCode
  split
  · next hindent =>
    exact ⟨[], (Adds.putBack c).trans (Adds.flush_literal _),
      fun _ hp => absurd hp List.not_mem_nil, fun hplace => absurd hindent.1 hplace⟩
  · have hread := (Adds.acceptRead c).trans (Adds.flush_literal _)
    rw [List.append_nil] at hread
    exact ⟨_, hread, free_leaves _, fun _ => rfl⟩

theorem adds_beforeComment (place : LinePlace) (c : Cursor σ) :
    ∃ ps, Adds ps c (c.beforeComment place) ∧ (∀ p ∈ ps, p.Free) ∧
      (place ≠ .indent → ps = c.held.reverse.map leaf) := by
  have hflush := Adds.flush_literal c
  unfold beforeComment
  by_cases hplace : place = .indent
  · rw [if_pos hplace]
    obtain ⟨ps, hps, hfree⟩ : Grows Free (c.flush .literal)
        ((c.flush .literal).acceptRead.flush .ephemeral) :=
      (Accepts.acceptRead _).flush (pending_flush c _) (by decide)
        fun ts => free_part (by decide) (free_leaves ts)
    exact ⟨ps, hflush.trans hps, hfree, fun hne => absurd hplace hne⟩
  · rw [if_neg hplace]
    have hread := (hflush.trans (Adds.acceptRead _)).trans (Adds.flush_literal _)
    rw [List.nil_append, List.append_nil, held_flush] at hread
    exact ⟨_, hread, free_leaves _, fun _ => rfl⟩

theorem grows_block (he : code.Enclosing) (hh : c.held = []) (hp : c.pending = []) :
    Grows Free c (code.block c) := (he.block hh hp).grows fun _ h => h.1

theorem grows_comment (he : code.Enclosing) (hh : c.held = []) (hp : c.pending = []) :
    Grows Free c (code.comment c) := (he.comment hh hp).grows fun _ h => h.1

/-- A step of a scan accepts what is held first, unless these are blanks that begin a line. -/
theorem adds_scanStep (he : code.Enclosing) (hflag : c.context.ephemeralLineEnding = false)
    (place : LinePlace) : ∃ ps qs, Adds (ps ++ qs) c (c.scanStep code place).2 ∧
      (∀ p ∈ ps ++ qs, p.Free) ∧ (place ≠ .indent → ps = c.held.reverse.map leaf) := by
  have hjoin {d e : Cursor σ} {ps : List Piece} (hps : Adds ps c d) (hfree : ∀ p ∈ ps, p.Free)
      (hplace : place ≠ .indent → ps = c.held.reverse.map leaf) (h : Grows Free d e) :
      ∃ ps qs, Adds (ps ++ qs) c e ∧ (∀ p ∈ ps ++ qs, p.Free) ∧
        (place ≠ .indent → ps = c.held.reverse.map leaf) := by
    obtain ⟨qs, hqs, hfree'⟩ := h
    refine ⟨ps, qs, hps.trans hqs, fun p hp => ?_, hplace⟩
    rcases List.mem_append.mp hp with hp | hp
    · exact hfree p hp
    · exact hfree' p hp
  have hread := Adds.acceptRead c
  have ho := scanStep_outcome code place c
  generalize c.scanStep code place = r at ho ⊢
  cases ho with
  | lineEnding h => exact absurd h (by simp [hflag])
  | newline _ hk =>
    obtain ⟨t, rest, ha⟩ := List.exists_cons_of_ne_nil (ahead_ne_nil_of_nth hk (by decide))
    have hbump := Adds.bump ha
    rw [List.map_append] at hbump
    refine ⟨_, _, hbump, ?_, fun _ => rfl⟩
    rw [← List.map_append]
    exact free_leaves _
  | doubled =>
    have hfirst : Grows Free (c.acceptRead.flush .literal)
        ((c.acceptRead.flush .literal).bump.flush .ephemeral) :=
      (Accepts.bump _).flush (pending_flush _ _) (by decide)
        fun ts => free_part (by decide) (free_leaves ts)
    refine hjoin hread (free_leaves _) (fun _ => rfl) ?_
    exact ((Grows.refl _).flush_literal.trans hfirst).trans ((Accepts.bump _).grows free_leaf)
  | code =>
    obtain ⟨hh, hp⟩ := left_beforeCode place c
    obtain ⟨ps, hps, hfree, hplace⟩ := adds_beforeCode place c
    exact hjoin hps hfree hplace (grows_block he hh hp)
  | comment =>
    obtain ⟨hh, hp⟩ := left_beforeComment place c
    obtain ⟨ps, hps, hfree, hplace⟩ := adds_beforeComment place c
    exact hjoin hps hfree hplace (grows_comment he hh hp)
  | commentLine =>
    obtain ⟨hh, hp⟩ := left_beforeComment place c
    obtain ⟨ps, hps, hfree, hplace⟩ := adds_beforeComment place c
    exact hjoin hps hfree hplace ((grows_comment he hh hp).trans
      (grows_ephemeralLineEnd (he.comment hh hp).pending))
  | other => exact hjoin hread (free_leaves _) (fun _ => rfl) (.silent (Adds.advance c.acceptRead))

theorem grows_scanStep (he : code.Enclosing) (hflag : c.context.ephemeralLineEnding = false)
    (place : LinePlace) : Grows Free c (c.scanStep code place).2 := by
  obtain ⟨ps, qs, hadds, hfree, -⟩ := adds_scanStep he hflag place
  exact ⟨_, hadds, hfree⟩

theorem grows_scanFrom (he : code.Enclosing) (hflag : c.context.ephemeralLineEnding = false)
    (stop : Cursor σ → Bool) : Grows Free c (scanFrom code stop bound place c) := by
  induction bound generalizing place c with
  | zero => exact (Accepts.fail c _).grows free_leaf
  | succ bound ih =>
    unfold scanFrom
    split
    · exact (Accepts.acceptRead c).grows free_leaf
    · have hstep := grows_scanStep he hflag place
      exact hstep.trans (ih (by rw [hstep.context, hflag]))

theorem grows_skipUntil (he : code.Enclosing) (hflag : c.context.ephemeralLineEnding = false)
    (stop : Cursor σ → Bool) : Grows Free c (c.skipUntil code stop) := grows_scanFrom he hflag stop

theorem grows_skipTo (he : code.Enclosing) (hflag : c.context.ephemeralLineEnding = false)
    (kind : Kind) : Grows Free c (c.skipTo code kind) := grows_scanFrom he hflag _

/-! ## How a scan begins -/

theorem scanFrom_held (he : code.Enclosing) (hflag : c.context.ephemeralLineEnding = false)
    (stop : Cursor σ → Bool) (hplace : place ≠ .indent) :
    ∃ ps, Adds ps c (scanFrom code stop bound place c) ∧ (∀ p ∈ ps, p.Free) ∧
      (ps = [] ∨ ∃ qs, ps = c.held.reverse.map leaf ++ qs) := by
  cases bound with
  | zero => exact ⟨[], Adds.fail c _, fun _ hp => absurd hp List.not_mem_nil, .inl rfl⟩
  | succ bound =>
    unfold scanFrom
    split
    · exact ⟨_, Adds.acceptRead c, free_leaves _, .inr ⟨[], (List.append_nil _).symm⟩⟩
    · obtain ⟨ps, qs, hstep, hfree, hheld⟩ := adds_scanStep he hflag place
      have hscan : Grows Free (c.scanStep code place).2
          (scanFrom code stop bound (c.scanStep code place).1 (c.scanStep code place).2) :=
        grows_scanFrom he (by rw [hstep.context, hflag]) stop
      obtain ⟨rs, hrest, hfree'⟩ := hscan
      refine ⟨_, hstep.trans hrest, fun p hp => ?_, .inr ⟨qs ++ rs, ?_⟩⟩
      · rcases List.mem_append.mp hp with hp | hp
        · exact hfree p hp
        · exact hfree' p hp
      · rw [hheld hplace, List.append_assoc]

/-- Free pieces are added, one at least, and the first is no text token. -/
def Leads (c d : Cursor σ) : Prop :=
  ∃ p ps, Adds (p :: ps) c d ∧ (∀ q ∈ p :: ps, q.Free) ∧ beginsText [p] = false

theorem Leads.grows {e : Cursor σ} (h : Leads c d) (h' : Grows Free d e) : Leads c e := by
  obtain ⟨p, ps, hps, hfree, hp⟩ := h
  obtain ⟨qs, hqs, hfree'⟩ := h'
  refine ⟨p, ps ++ qs, hps.trans hqs, fun q hq => ?_, hp⟩
  rw [← List.cons_append] at hq
  rcases List.mem_append.mp hq with hq | hq
  · exact hfree q hq
  · exact hfree' q hq

theorem Encloses.leads {e : Cursor σ} (h : Encloses d e) (hadds : Adds [] c d)
    (hne : d.ahead ≠ []) : Leads c e := by
  obtain ⟨ps, hps, henclosed, hsome⟩ := h.pieces
  obtain ⟨p, ps, rfl⟩ := List.exists_cons_of_ne_nil (hsome hne)
  obtain ⟨-, kind, inner, rfl⟩ := henclosed p (List.mem_cons_self ..)
  exact ⟨_, ps, hadds.trans hps, fun q hq => (henclosed q hq).1, rfl⟩

/-- A step with nothing held holds the token or leads with something. -/
theorem scanStep_leads (he : code.Enclosing) (hflag : c.context.ephemeralLineEnding = false)
    (hh : c.held = []) {t : Token} {rest : List Token} (ha : c.ahead = t :: rest) :
    Leads c (c.scanStep code .inside).2 ∨
      (c.scanStep code .inside).1 ≠ .indent ∧
        (c.scanStep code .inside).2 = c.acceptRead.advance := by
  have hread : Adds [] c c.acceptRead := by
    have hread := Adds.acceptRead c
    rwa [hh] at hread
  have hbefore : Adds [] c (c.beforeCode .inside) ∧ Adds [] c (c.beforeComment .inside) := by
    obtain ⟨ps, hps, -, hheld⟩ := adds_beforeCode .inside c
    obtain ⟨qs, hqs, -, hheld'⟩ := adds_beforeComment .inside c
    rw [hheld (by decide), hh] at hps
    rw [hheld' (by decide), hh] at hqs
    exact ⟨hps, hqs⟩
  have ho := scanStep_outcome code .inside c
  generalize c.scanStep code .inside = r at ho ⊢
  cases ho with
  | lineEnding h => exact absurd h (by simp [hflag])
  | newline _ hk =>
    have hbump := Adds.bump ha
    rw [hh] at hbump
    rw [current_cons ha] at hk
    exact .inl ⟨_, _, hbump, free_leaves [t], by simp [beginsText, hk]⟩
  | doubled =>
    have hone : (c.acceptRead.flush .literal).ahead.take 1 ≠ [] := by simp [ha]
    have hnode : Adds [.part .ephemeral _] _ _ :=
      Adds.flush_bumpN (pending_flush c.acceptRead .literal)
        ((held_flush _ _).trans (held_acceptRead c)) hone (by decide)
    have hfree : (Piece.part .ephemeral
        (((c.acceptRead.flush .literal).ahead.take 1).map leaf)).Free :=
      free_part (by decide) (free_leaves _)
    have hlead : Leads c (((c.acceptRead.flush .literal).bumpN 1).flush .ephemeral) :=
      ⟨_, [], (hread.trans (Adds.flush_literal _)).trans hnode, by simpa using hfree, rfl⟩
    exact .inl (hlead.grows ((Accepts.bump _).grows free_leaf))
  | code =>
    obtain ⟨hheld, hp⟩ := left_beforeCode .inside c
    exact .inl ((he.block hheld hp).leads hbefore.1 (by simp [beforeCode, ha]))
  | comment =>
    obtain ⟨hheld, hp⟩ := left_beforeComment .inside c
    exact .inl ((he.comment hheld hp).leads hbefore.2 (by simp [ahead_beforeComment, ha]))
  | commentLine =>
    obtain ⟨hheld, hp⟩ := left_beforeComment .inside c
    have hcomment := he.comment hheld hp
    exact .inl ((hcomment.leads hbefore.2 (by simp [ahead_beforeComment, ha])).grows
      (grows_ephemeralLineEnd hcomment.pending))
  | other => exact .inr ⟨by simp, rfl⟩

/-- A scan from a token that is no text adds no text token before anything else. -/
theorem scanFrom_begins (he : code.Enclosing) (hflag : c.context.ephemeralLineEnding = false)
    (stop : Cursor σ → Bool) (hh : c.held = []) (hk : ∀ t ∈ c.ahead.head?, t.kind ≠ .text) :
    ∃ ps, Adds ps c (scanFrom code stop bound .inside c) ∧ (∀ p ∈ ps, p.Free) ∧
      beginsText ps = false := by
  have hread : Adds [] c c.acceptRead := by
    have hread := Adds.acceptRead c
    rwa [hh] at hread
  cases bound with
  | zero => exact ⟨[], Adds.fail c _, fun _ hp => absurd hp List.not_mem_nil, rfl⟩
  | succ bound =>
    unfold scanFrom
    dsimp only
    split
    · exact ⟨[], hread, fun _ hp => absurd hp List.not_mem_nil, rfl⟩
    · next hstop =>
      have hne : c.ahead ≠ [] := ahead_ne_nil_of_not_atEnd fun he => hstop (by simp [he])
      obtain ⟨t, rest, ha⟩ := List.exists_cons_of_ne_nil hne
      have ht : t.kind ≠ .text := hk t (by rw [ha]; rfl)
      rcases scanStep_leads he hflag hh ha with hlead | ⟨hplace, hstep⟩
      · have hctx : (c.scanStep code .inside).2.context = c.context := by
          obtain ⟨_, _, hps, -⟩ := hlead
          exact hps.context
        obtain ⟨p, ps, hps, hfree, hp⟩ := hlead.grows (grows_scanFrom he (by rw [hctx, hflag]) stop)
        refine ⟨p :: ps, hps, hfree, ?_⟩
        cases p with
        | leaf t => exact hp
        | part => rfl
      · rw [hstep]
        obtain ⟨ps, hps, hfree, hcases⟩ := scanFrom_held (c := c.acceptRead.advance) he
          (by simpa using hflag) stop hplace
        refine ⟨ps, (hread.trans (Adds.advance _)).trans hps, hfree, ?_⟩
        rcases hcases with rfl | ⟨qs, rfl⟩
        · rfl
        · have hheld : c.acceptRead.advance.held = [t] := by simp [Cursor.advance, ha]
          rw [hheld]
          simpa [beginsText] using ht

theorem skipTo_begins (he : code.Enclosing) (hflag : c.context.ephemeralLineEnding = false)
    (kind : Kind) (hh : c.held = []) (hk : ∀ t ∈ c.ahead.head?, t.kind ≠ .text) :
    ∃ ps, Adds ps c (c.skipTo code kind) ∧ (∀ p ∈ ps, p.Free) ∧ beginsText ps = false :=
  scanFrom_begins he hflag (·.at? kind) hh hk

/-! ## Where a scan ends -/

/-- A test of the cursor that sees no more than the kinds of the tokens ahead. -/
def KindTest (stop : Cursor σ → Bool) : Prop :=
  ∀ ⦃c d : Cursor σ⦄, (∀ n, d.nth n = c.nth n) → stop d = stop c

theorem kindTest_at (kind : Kind) : KindTest fun c : Cursor σ => c.at? kind := fun _ _ h => by
  simp only [Cursor.at?, Cursor.current, h]

theorem stop_scanFrom {stop : Cursor σ → Bool} (hs : KindTest stop)
    (h : (scanFrom code stop bound place c).fault = none) :
    (scanFrom code stop bound place c).ahead = [] ∨
      stop (scanFrom code stop bound place c) = true := by
  induction bound generalizing place c with
  | zero => simp [scanFrom, fail] at h
  | succ bound ih =>
    unfold scanFrom at h ⊢
    split at h
    · next hstop =>
      have hread : stop c.acceptRead = stop c := hs fun n => by simp [nth]
      rw [if_pos hstop, hread]
      simpa [atEnd] using hstop
    · next hstop =>
      rw [if_neg hstop]
      exact ih h

variable {strict : Prop} {base : List Event} {ms : List Marker}

theorem fault_skipUntil (hl : code.Lawful strict fun _ => True) (h : Sound strict base ms c)
    (stop : Cursor σ → Bool) : (c.skipUntil code stop).fault = none :=
  ((Reaches.refl h).skipUntil hl.toStepwise stop trivial).sound.fault

theorem held_skipUntil (hl : code.Lawful strict fun _ => True) (h : Sound strict base ms c)
    (stop : Cursor σ → Bool) : (c.skipUntil code stop).held = [] :=
  held_scanFrom (fault_skipUntil hl h stop)

theorem held_skipTo (hl : code.Lawful strict fun _ => True) (h : Sound strict base ms c)
    (kind : Kind) : (c.skipTo code kind).held = [] := held_skipUntil hl h _

theorem stop_skipUntil (hl : code.Lawful strict fun _ => True) (h : Sound strict base ms c)
    {stop : Cursor σ → Bool} (hs : KindTest stop) :
    (c.skipUntil code stop).ahead = [] ∨ stop (c.skipUntil code stop) = true :=
  stop_scanFrom hs (fault_skipUntil hl h stop)

theorem at_skipTo (hl : code.Lawful strict fun _ => True) (h : Sound strict base ms c) (kind : Kind) :
    (c.skipTo code kind).ahead = [] ∨ (c.skipTo code kind).current = kind := by
  simpa [skipTo, at?] using stop_skipUntil hl h (kindTest_at kind)

/-! ## Comments, sections and instructions -/

theorem grows_commentBodyFrom (he : code.Enclosing)
    (hflag : c.context.ephemeralLineEnding = false) :
    Grows Free c (commentBodyFrom code bound c).2 := by
  induction bound generalizing c with
  | zero => exact (Accepts.fail c _).grows free_leaf
  | succ bound ih =>
    have hskip := grows_skipTo he hflag .doubleHyphen
    unfold commentBodyFrom
    dsimp only
    split
    · exact hskip
    · split
      · exact (hskip.flush_literal.trans ((Accepts.bumpN _ _).grows free_leaf)).flush_literal
      · have hbump := hskip.trans ((Accepts.bump _).grows free_leaf)
        exact hbump.trans (ih (by rw [hbump.context, hflag]))

theorem grows_acceptThroughFrom (he : code.Enclosing)
    (hflag : c.context.ephemeralLineEnding = false) (first : Kind) (rest : List Kind) :
    Grows Free c (acceptThroughFrom code first rest bound c).2 := by
  induction bound generalizing c with
  | zero => exact (Accepts.fail c _).grows free_leaf
  | succ bound ih =>
    have hskip := grows_skipTo he hflag first
    unfold acceptThroughFrom
    dsimp only
    split
    · exact hskip
    · split
      · exact hskip.trans ((Accepts.bumpN _ _).grows free_leaf)
      · have hbump := hskip.trans ((Accepts.bump _).grows free_leaf)
        exact hbump.trans (ih (by rw [hbump.context, hflag]))

theorem grows_htmlComment (he : code.Enclosing) (hflag : c.context.ephemeralLineEnding = false) :
    Grows Free c (c.htmlComment code).2 := by
  have hopen := ((Accepts.bumpN c.start.2 3).grows (P := Free) free_leaf).flush_literal
  have hctx : c.start.2.context = c.context := context_flush c _
  unfold htmlComment
  dsimp only
  refine (hopen.trans (grows_commentBodyFrom he ?_)).node .commentBlock (by decide)
    fun ps => free_part (by decide)
  rw [hopen.context, hctx, hflag]

theorem grows_bangTag (he : code.Enclosing) (hflag : c.context.ephemeralLineEnding = false) :
    Grows Free c (c.bangTag code).2 := by
  have hopen := (Accepts.bumpN c 2).grows (P := Free) free_leaf
  unfold bangTag
  dsimp only
  split
  · exact grows_htmlComment he hflag
  · refine Grows.flush_literal ?_
    split
    · have hsection := hopen.trans ((Accepts.bumpN _ 3).grows free_leaf)
      exact hsection.trans (grows_acceptThroughFrom he (by rw [hsection.context, hflag]) _ _)
    · exact hopen.trans (grows_acceptThroughFrom he (by rw [hopen.context, hflag]) _ _)

theorem grows_specialTag (he : code.Enclosing) (hflag : c.context.ephemeralLineEnding = false) :
    Grows Free c (c.specialTag code).2 := by
  unfold specialTag
  split
  · exact grows_bangTag he hflag
  · have hopen := (Accepts.bumpN c 2).grows (P := Free) free_leaf
    unfold instruction
    dsimp only
    exact (hopen.trans (grows_acceptThroughFrom he (by rw [hopen.context, hflag]) _ _)).flush_literal

end TemplateMarkup.Cursor
