import TemplateMarkup.Proofs.Doubling
import TemplateMarkup.Proofs.Nodes
import TemplateMarkup.Proofs.Takes

/-! # Scanning text with doubled transitions

A scan makes literal text of tokens that read back as `undoubled?` reads them,
and text that is not rendered of one `@` in each pair. Tokens that do not read
back have a code block or a comment in the tree. -/

namespace TemplateMarkup

namespace Tree

mutual

/-- The text in the literal nodes of a tree. -/
def literalText : Tree → List Char
  | token .. => []
  | node kind children => if kind = .literal then textOf children else literalTextOf children

def literalTextOf : List Tree → List Char
  | [] => []
  | t :: ts => t.literalText ++ literalTextOf ts

end

@[simp] theorem literalTextOf_append (a b : List Tree) :
    literalTextOf (a ++ b) = literalTextOf a ++ literalTextOf b := by
  induction a with
  | nil => rfl
  | cons t a ih => simp [literalTextOf, ih]

@[simp] theorem textOf_map_ofToken (ts : List Token) : textOf (ts.map ofToken) = Token.textOf ts := by
  induction ts with
  | nil => rfl
  | cons t ts ih => simp [textOf, text, ofToken, ih]

@[simp] theorem literalTextOf_map_ofToken (ts : List Token) : literalTextOf (ts.map ofToken) = [] := by
  induction ts with
  | nil => rfl
  | cons t ts ih => simp [literalTextOf, literalText, ofToken, ih]

@[simp] theorem nodeKindsOf_map_ofToken (ts : List Token) : nodeKindsOf (ts.map ofToken) = [] := by
  induction ts with
  | nil => rfl
  | cons t ts ih => simp [nodeKindsOf, nodeKinds, ofToken, ih]

/-- A node of text, rendered or not. -/
def IsText (t : Tree) : Prop :=
  ∃ kind, ∃ ts : List Token, t = .node kind (ts.map ofToken) ∧ (kind = .literal ∨ kind = .ephemeral)

theorem nodeKindsOf_text {ts : List Tree} (h : ∀ t ∈ ts, t.IsText) {kind : Kind}
    (hk : kind ∈ nodeKindsOf ts) : kind = .literal ∨ kind = .ephemeral := by
  induction ts with
  | nil => cases hk
  | cons t ts ih =>
    rw [nodeKindsOf, List.mem_append] at hk
    rcases hk with hk | hk
    · obtain ⟨k, us, rfl, hkind⟩ := h t (List.mem_cons_self ..)
      rw [nodeKinds, nodeKindsOf_map_ofToken, List.mem_singleton] at hk
      rwa [hk]
    · exact ih (fun u hu => h u (List.mem_cons_of_mem t hu)) hk

end Tree

namespace Cursor

open TemplateMarkup.Tree

variable {σ : Type} {c d e : Cursor σ} {text more : List Char} {used rest : List Token}

/-- The text accepted or held and not flushed. -/
def waiting (c : Cursor σ) : List Char := Token.textOf (c.pending.reverse ++ c.held.reverse)

/-- From one cursor to the other only nodes of text are added to the innermost node. The text adds
to what is literal in them or waits to be. -/
structure Writes (text : List Char) (c d : Cursor σ) : Prop where
  trees : ∀ {f fs}, Shows c (f :: fs) → ∃ new, Shows d ((f ++ new) :: fs) ∧ (∀ t ∈ new, t.IsText) ∧
    literalTextOf new ++ d.waiting = c.waiting ++ text
  context : d.context = c.context
  diagnostics : d.diagnostics = c.diagnostics

namespace Writes

theorem trans (h : Writes text c d) (h' : Writes more d e) : Writes (text ++ more) c e where
  trees := by
    intro f fs hc
    obtain ⟨new, hd, htext, heq⟩ := h.trees hc
    obtain ⟨new', he, htext', heq'⟩ := h'.trees hd
    refine ⟨new ++ new', by rwa [← List.append_assoc], ?_, ?_⟩
    · intro t ht
      rcases List.mem_append.mp ht with ht | ht
      · exact htext t ht
      · exact htext' t ht
    · rw [literalTextOf_append, List.append_assoc, heq', ← List.append_assoc, heq, List.append_assoc]
  context := h'.context.trans h.context
  diagnostics := h'.diagnostics.trans h.diagnostics

/-- Nothing that the tree shows changes. -/
theorem read (hevents : d.events = c.events) (hflushed : d.flushed = c.flushed)
    (htokens : d.tokens = c.tokens) (hcontext : d.context = c.context)
    (hdiagnostics : d.diagnostics = c.diagnostics) (hwaiting : d.waiting = c.waiting ++ text) :
    Writes text c d where
  trees hc := ⟨[], by rw [List.append_nil]; exact hc.same hevents hflushed htokens,
    fun _ ht => absurd ht List.not_mem_nil, hwaiting⟩
  context := hcontext
  diagnostics := hdiagnostics

theorem bump {t : Token} (ha : c.ahead = t :: rest) : Writes t.text c c.bump := by
  refine read ?_ ?_ (tokens_bump c) (context_bump c) (diagnostics_bump c) ?_
  all_goals simp [Cursor.bump, ha, waiting]

theorem advance {t : Token} (ha : c.ahead = t :: rest) : Writes t.text c c.advance := by
  refine read ?_ ?_ (tokens_advance c) (context_advance c) (diagnostics_advance c) ?_
  all_goals simp [Cursor.advance, ha, waiting]

theorem acceptRead (c : Cursor σ) : Writes [] c c.acceptRead := by
  refine read ?_ ?_ (tokens_acceptRead c) (context_acceptRead c) (diagnostics_acceptRead c) ?_
  all_goals
    unfold Cursor.acceptRead
    split <;> simp [fail, waiting]

/-- What is accepted becomes a node. -/
theorem flush (c : Cursor σ) {kind : Kind} (hk : kind = .literal ∨ kind = .ephemeral)
    (htext : literalTextOf (flushTrees kind c.pending) ++ Token.textOf c.held.reverse =
      c.waiting ++ text) : Writes text c (c.flush kind) where
  trees hc := by
    refine ⟨flushTrees kind c.pending, hc.flush kind, ?_, ?_⟩
    · intro t ht
      unfold flushTrees at ht
      split at ht
      · cases ht
      · exact ⟨kind, c.pending.reverse, List.mem_singleton.mp ht, hk⟩
    · simpa [waiting] using htext
  context := context_flush c kind
  diagnostics := diagnostics_flush c kind

theorem flush_literal (c : Cursor σ) : Writes [] c (c.flush .literal) := by
  refine flush c (.inl rfl) ?_
  unfold flushTrees
  split <;> simp [literalTextOf, literalText, waiting, *, -List.map_reverse]

/-- With nothing waiting, a token becomes a node that is not rendered. -/
theorem ephemeral {t : Token} (hp : c.pending = []) (hh : c.held = []) (ha : c.ahead = t :: rest) :
    Writes [] c (c.bump.flush .ephemeral) where
  trees hc := by
    have hbump := hc.same (d := c.bump) (by simp [Cursor.bump, ha]) (by simp [Cursor.bump, ha])
      (tokens_bump c)
    have hpending : c.bump.pending = [t] := by simp [Cursor.bump, ha, hp, hh]
    have hflush := hbump.flush .ephemeral
    rw [hpending] at hflush
    refine ⟨_, hflush, ?_, ?_⟩
    · intro u hu
      exact ⟨.ephemeral, [t], List.mem_singleton.mp hu, .inr rfl⟩
    · have hnone := literalTextOf_map_ofToken [t]
      simpa [flushTrees, literalTextOf, literalText, waiting, hp, hh, held_bump ha] using hnone
  context := (context_flush _ _).trans (context_bump c)
  diagnostics := (diagnostics_flush _ _).trans (diagnostics_bump c)

/-- Of two tokens the first is not rendered. -/
theorem doubled {t u : Token} (ha : c.ahead = t :: u :: rest) :
    Writes u.text c (((c.acceptRead.flush .literal).bump.flush .ephemeral).bump) := by
  have hflush := (acceptRead c).trans (flush_literal c.acceptRead)
  have hahead : (c.acceptRead.flush .literal).ahead = t :: u :: rest := by simp [ha]
  have hfirst := ephemeral (pending_flush _ _) ((held_flush _ _).trans (held_acceptRead c)) hahead
  have hsecond : ((c.acceptRead.flush .literal).bump.flush .ephemeral).ahead = u :: rest := by
    rw [ahead_flush, ahead_bump, hahead, List.tail_cons]
  exact (hflush.trans hfirst).trans (bump hsecond)

end Writes

/-! ## One step -/

variable {code : EmbeddedCode σ} {place : LinePlace} {t u : Token}

/-- A token that has nothing to do with code is read. -/
theorem scanStep_literal (code : EmbeddedCode σ) (place : LinePlace)
    (hflag : c.context.ephemeralLineEnding = false) (ha : c.ahead = t :: rest)
    (hopen : t.kind ≠ .commentOpen) (hat : t.kind ≠ .transition) :
    Writes t.text c (c.scanStep code place).2 ∧ (c.scanStep code place).2.ahead = rest := by
  have hcurrent : c.current = t.kind := current_cons ha
  have ho := scanStep_outcome code place c
  generalize c.scanStep code place = r at ho ⊢
  cases ho with
  | lineEnding h => exact absurd h (by simp [hflag])
  | doubled _ h | code _ h => exact absurd (hcurrent.symm.trans h) hat
  | comment _ h | commentLine _ h => exact absurd (hcurrent.symm.trans h) hopen
  | newline => exact ⟨.bump ha, by rw [ahead_bump, ha]; rfl⟩
  | other =>
    refine ⟨(Writes.acceptRead c).trans (.advance ((ahead_acceptRead c).trans ha)), ?_⟩
    simp [Cursor.advance, ha]

/-- Of two `@` in a row the second is read. -/
theorem scanStep_pair (code : EmbeddedCode σ) (place : LinePlace)
    (hflag : c.context.ephemeralLineEnding = false) (ha : c.ahead = t :: u :: rest)
    (ht : t.kind = .transition) (hu : u.kind = .transition) :
    Writes u.text c (c.scanStep code place).2 ∧ (c.scanStep code place).2.ahead = rest := by
  have hcurrent : c.current = .transition := (current_cons ha).trans ht
  have hnext : c.nth 1 = .transition := by simp [nth, Token.kindAt, ha, hu]
  have hstep : c.scanStep code place =
      (.inside, ((c.acceptRead.flush .literal).bump.flush .ephemeral).bump) := by
    rw [scanStep, if_neg (by simp [hflag]), hcurrent]
    dsimp only
    rw [if_pos hnext]
  rw [hstep]
  exact ⟨.doubled ha, by simp [ahead_bump, ha]⟩

theorem scanFrom_step {stop : Cursor σ → Bool} (hend : c.ahead ≠ []) (hstop : stop c = false)
    (bound : Nat) : scanFrom code stop (bound + 1) place c =
      scanFrom code stop bound (c.scanStep code place).1 (c.scanStep code place).2 := by
  rw [scanFrom, if_neg (by simp [atEnd, hend, hstop])]

/-! ## Whole scans -/

/-- A scan reads tokens whose `@` are doubled as text. -/
theorem scanFrom_writes (code : EmbeddedCode σ) {bound : Nat} (place : LinePlace)
    (hflag : c.context.ephemeralLineEnding = false) (ha : c.ahead = used ++ rest)
    (hread : undoubled? used = some text) (hangle : ∀ t ∈ used, t.kind ≠ .openAngle)
    (hstop : ∀ t ∈ rest.head?, t.kind = .openAngle) (hb : used.length < bound) :
    Writes text c (scanFrom code (·.at? .openAngle) bound place c) ∧
      (scanFrom code (·.at? .openAngle) bound place c).ahead = rest ∧
      (scanFrom code (·.at? .openAngle) bound place c).held = [] := by
  induction used using undoubled?.induct generalizing c bound place text with
  | case1 =>
    obtain ⟨bound, rfl⟩ := Nat.exists_eq_add_of_lt hb
    have hend : (c.atEnd || c.at? .openAngle) = true := by
      cases rest with
      | nil => simp [atEnd, ha]
      | cons t rest => simp [at?, current_cons ha, hstop t rfl]
    obtain rfl : [] = text := Option.some.inj hread
    rw [scanFrom, if_pos hend]
    exact ⟨.acceptRead c, (ahead_acceptRead c).trans ha, held_acceptRead c⟩
  | case2 t ts hk =>
    rw [undoubled?_commentOpen hk] at hread
    cases hread
  | case3 t hopen hk =>
    rw [undoubled?.eq_def] at hread
    simp [hk] at hread
  | case5 t hopen hk u us hu =>
    rw [undoubled?_pair hk, if_neg hu] at hread
    cases hread
  | case4 t hopen hk u us hu ih =>
    obtain ⟨bound, rfl⟩ := Nat.exists_eq_add_of_lt hb
    rw [undoubled?_pair hk, if_pos hu] at hread
    obtain ⟨more, hmore, rfl⟩ := Option.map_eq_some_iff.mp hread
    obtain ⟨hstep, hahead⟩ := scanStep_pair code place hflag ha hk hu
    have hlen : us.length < (t :: u :: us).length + bound := by
      simp only [List.length_cons]
      omega
    obtain ⟨hwrites, hrest, hheld⟩ := ih _ (by rw [hstep.context, hflag]) hahead hmore
      (fun v hv => hangle v (List.mem_cons_of_mem _ (List.mem_cons_of_mem _ hv))) hlen
    rw [scanFrom_step (by simp [ha]) (by simp [at?, current_cons ha, hk])]
    exact ⟨hstep.trans hwrites, hrest, hheld⟩
  | case6 t ts hopen hk ih =>
    obtain ⟨bound, rfl⟩ := Nat.exists_eq_add_of_lt hb
    rw [undoubled?_literal hopen hk] at hread
    obtain ⟨more, hmore, rfl⟩ := Option.map_eq_some_iff.mp hread
    obtain ⟨hstep, hahead⟩ := scanStep_literal code place hflag ha hopen hk
    have hlen : ts.length < (t :: ts).length + bound := by
      simp only [List.length_cons]
      omega
    obtain ⟨hwrites, hrest, hheld⟩ := ih _ (by rw [hstep.context, hflag]) hahead hmore
      (fun v hv => hangle v (List.mem_cons_of_mem t hv)) hlen
    rw [scanFrom_step (by simp [ha])
      (by simp [at?, current_cons ha, hangle t (List.mem_cons_self ..)])]
    exact ⟨hstep.trans hwrites, hrest, hheld⟩

/-! ## Code and comments -/

variable {strict : Prop} {base : List Event} {ms : List Marker}

theorem begun_ensureProgress {kind : Kind} (h : Sound strict base ms c) (hbegun : c.Begun kind)
    (before : Nat) : (EmbeddedCode.ensureProgress before c).Begun kind :=
  (Reaches.refl h).ensureProgress.path.begun hbegun

/-- Behind blanks, an `@` begins a code block. -/
theorem begun_block {blanks : List Token} (h : Sound strict base ms c)
    (ha : c.ahead = blanks ++ t :: rest) (hblanks : ∀ b ∈ blanks, b.kind = .whitespace)
    (ht : t.kind = .transition) : (EmbeddedCode.implicit.block c).Begun .codeBlock := by
  have hrun : c.runLength (·.kind == .whitespace) 0 = blanks.length := by
    rw [runLength, ha, List.drop_zero, List.takeWhile_append_of_pos (by simpa using hblanks)]
    simp [ht]
  have hnth : c.nth blanks.length = .transition := by simp [nth, Token.kindAt, ha, ht]
  have hinner := (((Reaches.refl h).start.bumpN (blanks.length + 1)).expressionBody).flushRaw
  have hbegun : c.implicitExpression.Begun .codeBlock := by
    unfold implicitExpression
    dsimp only
    rw [hrun, if_pos hnth]
    exact begun_complete hinner.sound .codeBlock
  exact begun_ensureProgress (Reaches.refl h).implicitExpression.sound hbegun _

theorem begun_comment (h : Sound strict base ms c) (hk : c.current = .commentOpen) :
    (EmbeddedCode.implicit.comment c).Begun .inlineComment := by
  have hinner := (((Reaches.refl h).start.bump.bumpWhile (·.kind != .commentClose)).eat
    .commentClose).flushRaw
  have hbegun : c.inlineComment.Begun .inlineComment := by
    unfold inlineComment
    rw [if_pos (by simp [at?, hk])]
    exact begun_complete hinner.sound .inlineComment
  exact begun_ensureProgress (Reaches.refl h).inlineComment.sound hbegun _

theorem stepwise : (EmbeddedCode.implicit : EmbeddedCode σ).Stepwise strict fun _ => True :=
  (lawful_implicit strict _).toStepwise

/-- At most the blanks that begin the line are handed over with the code. -/
theorem ahead_beforeCode (hi : HoldsBlanks place c) : ∃ blanks : List Token,
    (c.beforeCode place).ahead = blanks ++ c.ahead ∧ ∀ b ∈ blanks, b.kind = .whitespace := by
  unfold Cursor.beforeCode
  split
  · next hindent =>
    obtain ⟨b, hb, hkind⟩ := hi hindent.1
    refine ⟨[b], by rw [ahead_flush, ahead_putBack, hb]; rfl, ?_⟩
    rintro _ (_ | ⟨_, ⟨⟩⟩)
    exact hkind
  · exact ⟨[], by rw [ahead_flush, ahead_acceptRead]; rfl, fun _ hb => absurd hb List.not_mem_nil⟩

theorem begun_beforeComment (h : Sound strict base ms c) (hk : c.current = .commentOpen)
    (place : LinePlace) :
    (EmbeddedCode.implicit.comment (c.beforeComment place)).Begun .inlineComment := by
  refine begun_comment ((Reaches.refl h).beforeComment place).sound ?_
  rw [current, nth, ahead_beforeComment]
  exact hk

/-- A code block or a comment has begun. -/
def CodeBegun (c : Cursor σ) : Prop := c.Begun .codeBlock ∨ c.Begun .inlineComment

theorem CodeBegun.follow (h : c.CodeBegun) {ns : List Marker} (p : Path strict c ms d ns) :
    d.CodeBegun := h.imp p.begun p.begun

/-- An `@` that stands alone or opens a comment begins a node. -/
theorem scanStep_begun (h : Sound strict base ms c) (hi : HoldsBlanks place c)
    (hflag : c.context.ephemeralLineEnding = false) (ha : c.ahead = t :: rest)
    (hstray : t.kind = .commentOpen ∨ t.kind = .transition ∧ Token.kindAt rest 0 ≠ .transition) :
    (c.scanStep .implicit place).2.CodeBegun := by
  have hcurrent : c.current = t.kind := current_cons ha
  have hnext : c.nth 1 = Token.kindAt rest 0 := by simp [nth, Token.kindAt, ha]
  have ho := scanStep_outcome .implicit place c
  generalize c.scanStep .implicit place = r at ho ⊢
  cases ho with
  | lineEnding hdue => exact absurd hdue (by simp [hflag])
  | newline _ hk =>
    rw [hcurrent] at hk
    rcases hstray with h' | ⟨h', -⟩
    all_goals
      rw [h'] at hk
      cases hk
  | other _ _ hat hopen =>
    rw [hcurrent] at hat hopen
    rcases hstray with h' | ⟨h', -⟩
    · exact absurd h' hopen
    · exact absurd h' hat
  | doubled _ hk hn =>
    rw [hcurrent] at hk
    rw [hnext] at hn
    rcases hstray with h' | ⟨-, h'⟩
    · rw [hk] at h'
      cases h'
    · exact absurd hn h'
  | code _ hk =>
    obtain ⟨blanks, hahead, hblanks⟩ := ahead_beforeCode hi
    rw [ha] at hahead
    exact .inl (begun_block ((Reaches.refl h).beforeCode place).sound hahead hblanks
      (hcurrent.symm.trans hk))
  | comment _ hk => exact .inr (begun_beforeComment h hk place)
  | commentLine _ hk =>
    have hcomment := (((Reaches.refl h).beforeComment place).codeComment stepwise trivial)
    exact .inr ((Reaches.refl hcomment.sound).endLine.path.begun (begun_beforeComment h hk place))

/-- A scan goes on behind a step that makes its measure smaller. -/
theorem sound_scanStep {bound : Nat} (h : Sound strict base ms c) (hi : HoldsBlanks place c)
    (hne : c.ahead ≠ []) (hb : scanMeasure place c < bound + 1) :
    Sound strict base ms (c.scanStep .implicit place).2 ∧
      scanMeasure (c.scanStep .implicit place).1 (c.scanStep .implicit place).2 < bound := by
  have hlt := scanMeasure_scanStep stepwise h hi.holdsIndent hne trivial
  exact ⟨((Reaches.refl h).scanStep stepwise place trivial).sound, by omega⟩

theorem scanFrom_stray {bound : Nat} (h : Sound strict base ms c) (hi : HoldsBlanks place c)
    (hflag : c.context.ephemeralLineEnding = false) (ha : c.ahead = t :: rest)
    (hstray : t.kind = .commentOpen ∨ t.kind = .transition ∧ Token.kindAt rest 0 ≠ .transition)
    (hb : scanMeasure place c < bound) :
    (scanFrom .implicit (·.at? .openAngle) bound place c).CodeBegun := by
  obtain ⟨bound, rfl⟩ := Nat.exists_eq_add_of_lt hb
  have hne : c.ahead ≠ [] := by simp [ha]
  have hkind : t.kind ≠ .openAngle := by
    rcases hstray with hk | ⟨hk, -⟩
    all_goals
      rw [hk]
      decide
  obtain ⟨hs, hlt⟩ := sound_scanStep h hi hne hb
  rw [scanFrom_step hne (by simp [at?, current_cons ha, hkind])]
  refine (scanStep_begun h hi hflag ha hstray).follow
    ((Reaches.refl hs).scanFrom stepwise (·.at? .openAngle) ?_ hlt trivial).path
  exact holdsIndent_scanStep hne place

/-- A scan of tokens whose `@` are not all doubled begins a code block or a comment. -/
theorem scanFrom_begun {bound : Nat} (h : Sound strict base ms c) (hi : HoldsBlanks place c)
    (hflag : c.context.ephemeralLineEnding = false) (ha : c.ahead = used ++ rest)
    (hread : undoubled? used = none) (hangle : ∀ t ∈ used, t.kind ≠ .openAngle)
    (hstop : ∀ t ∈ rest.head?, t.kind = .openAngle) (hb : scanMeasure place c < bound) :
    (scanFrom .implicit (·.at? .openAngle) bound place c).CodeBegun := by
  induction used using undoubled?.induct generalizing c bound place with
  | case1 => cases hread
  | case2 t ts hk => exact scanFrom_stray h hi hflag ha (.inl hk) hb
  | case3 t hopen hk =>
    refine scanFrom_stray h hi hflag ha (.inr ⟨hk, ?_⟩) hb
    cases rest with
    | nil => decide
    | cons u rest =>
      rw [Token.kindAt]
      simp [hstop u rfl]
  | case5 t hopen hk u us hu =>
    exact scanFrom_stray h hi hflag ha (.inr ⟨hk, by simpa [Token.kindAt] using hu⟩) hb
  | case4 t hopen hk u us hu ih =>
    obtain ⟨bound, rfl⟩ := Nat.exists_eq_add_of_lt hb
    rw [undoubled?_pair hk, if_pos hu, Option.map_eq_none_iff] at hread
    obtain ⟨hstep, hahead⟩ := scanStep_pair .implicit place hflag ha hk hu
    obtain ⟨hs, hlt⟩ := sound_scanStep h hi (by simp [ha]) hb
    rw [scanFrom_step (by simp [ha]) (by simp [at?, current_cons ha, hk])]
    exact ih hs (holdsBlanks_scanStep (by simp [ha]) place) (by rw [hstep.context, hflag]) hahead hread
      (fun v hv => hangle v (List.mem_cons_of_mem _ (List.mem_cons_of_mem _ hv))) hlt
  | case6 t ts hopen hk ih =>
    obtain ⟨bound, rfl⟩ := Nat.exists_eq_add_of_lt hb
    rw [undoubled?_literal hopen hk, Option.map_eq_none_iff] at hread
    obtain ⟨hstep, hahead⟩ := scanStep_literal .implicit place hflag ha hopen hk
    obtain ⟨hs, hlt⟩ := sound_scanStep h hi (by simp [ha]) hb
    rw [scanFrom_step (by simp [ha])
      (by simp [at?, current_cons ha, hangle t (List.mem_cons_self ..)])]
    exact ih hs (holdsBlanks_scanStep (by simp [ha]) place) (by rw [hstep.context, hflag]) hahead hread
      (fun v hv => hangle v (List.mem_cons_of_mem t hv)) hlt

/-- What has begun before a tag has begun when the walk over the tags ends. -/
theorem codeBegun_tagsFrom {bound : Nat} {w : TagWalk σ} (hb : w.cursor.unclaimed < bound)
    (h : Sound False base (w.openTags.markers ++ ms) w.cursor)
    (hbegun : (w.cursor.skipTo .implicit .openAngle).CodeBegun) :
    (tagsFrom .implicit bound w).cursor.CodeBegun := by
  obtain ⟨bound, rfl⟩ := Nat.exists_eq_add_of_lt hb
  have hskip := ((Reaches.refl h).skipTo stepwise .openAngle trivial).flush .literal
  have hbegun : ((w.cursor.skipTo .implicit .openAngle).flush .literal).CodeBegun :=
    hbegun.imp (Begun.flush · .literal) (Begun.flush · .literal)
  rw [tagsFrom]
  dsimp only
  split
  · exact hbegun
  · next hend =>
    have htag := (Reaches.refl hskip.sound).tag (lawful_implicit False fun _ => True) False.elim trivial
      (ahead_ne_nil_of_not_atEnd hend)
    have hbegun := hbegun.follow htag.path
    split
    · exact hbegun
    · refine hbegun.follow (Reaches.tagsFrom (lawful_implicit False fun _ => True) ?_ trivial
        ⟨Reaches.refl htag.sound, False.elim⟩).path
      have := hskip.gained
      have := htag.gained
      omega

theorem codeBegun_endTags {bound : Nat} {w : TagWalk σ} (hb : w.cursor.unclaimed < bound)
    (h : Sound False base (w.openTags.markers ++ ms) w.cursor)
    (hbegun : (w.cursor.skipTo .implicit .openAngle).CodeBegun) :
    Sound False base ms (endTags (tagsFrom .implicit bound w)) ∧
      (endTags (tagsFrom .implicit bound w)).CodeBegun := by
  have htags := Reaches.tagsFrom (lawful_implicit False fun _ => True) hb trivial ⟨Reaches.refl h, False.elim⟩
  have hend := Reaches.endTags ⟨Reaches.refl htags.sound, False.elim⟩
  exact ⟨hend.sound, (codeBegun_tagsFrom hb h hbegun).follow hend.path⟩

end Cursor

end TemplateMarkup
