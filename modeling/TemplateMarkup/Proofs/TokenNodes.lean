import TemplateMarkup.Proofs.Moves
import TemplateMarkup.Proofs.Parallel.Expressions
import TemplateMarkup.Proofs.Parallel.Sources
import TemplateMarkup.Proofs.Safety

/-! # Nodes of tokens, and code that reads a line

Behind the colon of single-line markup only nodes of tokens follow each other.
`Lays` says which nodes a stretch of the parse adds. A code parser is `LineWise`
if each of its calls makes one node; its calls may ask for the line ending behind
them not to be rendered, or claim line endings themselves. -/

namespace TemplateMarkup

open TemplateMarkup.Tree

/-- A node that holds tokens. -/
structure TokenNode where
  kind : Kind
  tokens : List Token

namespace TokenNode

def tree (n : TokenNode) : Tree := .node n.kind (n.tokens.map ofToken)

/-- The tokens of neighbouring nodes. -/
def tokensOf (ns : List TokenNode) : List Token := ns.flatMap tokens

@[simp] theorem tokensOf_nil : tokensOf [] = [] := rfl

@[simp] theorem tokensOf_append (ns ks : List TokenNode) :
    tokensOf (ns ++ ks) = tokensOf ns ++ tokensOf ks := by
  simp [tokensOf]

@[simp] theorem tokensOf_singleton (n : TokenNode) : tokensOf [n] = n.tokens := by
  simp [tokensOf]

/-- The node that a flush makes of accepted tokens; none without a token. -/
def ofPending (kind : Kind) (pending : List Token) : List TokenNode :=
  if pending = [] then [] else [⟨kind, pending.reverse⟩]

@[simp] theorem ofPending_nil (kind : Kind) : ofPending kind [] = [] := rfl

theorem map_tree_ofPending (kind : Kind) (pending : List Token) :
    (ofPending kind pending).map tree = Cursor.flushTrees kind pending := by
  unfold ofPending Cursor.flushTrees
  split <;> rfl

@[simp] theorem tokensOf_ofPending (kind : Kind) (pending : List Token) :
    tokensOf (ofPending kind pending) = pending.reverse := by
  unfold ofPending
  split
  · next h => simp [h]
  · simp

end TokenNode

/-- The last of the tokens is a line ending. -/
def Token.EndsLine (ts : List Token) : Prop := ∃ t, ts.getLast? = some t ∧ t.kind = .newline

theorem Token.divisible_spelled : Divisible Spelled := by
  intro kind a b ha hb h
  have hslash : kind ≠ .slash := by
    intro hk
    have hlen := congrArg List.length (h.slash hk)
    have := List.length_pos_iff.mpr ha
    have := List.length_pos_iff.mpr hb
    simp only [List.length_append, List.length_singleton] at hlen
    omega
  exact ⟨⟨fun c hc => h.lineEnd c (List.mem_append_left _ hc), fun hk => absurd hk hslash⟩,
    ⟨fun c hc => h.lineEnd c (List.mem_append_right _ hc), fun hk => absurd hk hslash⟩⟩

namespace Cursor

variable {σ : Type} {c d e : Cursor σ} {kind : Kind} {ns ks : List TokenNode} {n : TokenNode}

theorem flushed_complete (c : Cursor σ) (m : Marker) (kind : Kind) :
    (c.complete m kind).flushed = c.pending ++ c.flushed := by
  unfold complete
  dsimp only
  split <;> exact flushed_flush c _

/-- These nodes are added to the innermost open node, and their tokens are leaves then. -/
structure Lays (ns : List TokenNode) (c d : Cursor σ) : Prop where
  shows {f : List Tree} {fs : List (List Tree)} : Shows c (f :: fs) →
    Shows d ((f ++ ns.map TokenNode.tree) :: fs)
  flushed : d.flushed = (TokenNode.tokensOf ns).reverse ++ c.flushed

namespace Lays

theorem same (hevents : d.events = c.events) (hflushed : d.flushed = c.flushed)
    (htokens : d.tokens = c.tokens) : Lays [] c d where
  shows hs := by
    rw [List.map_nil, List.append_nil]
    exact hs.same hevents hflushed htokens
  flushed := hflushed

theorem refl (c : Cursor σ) : Lays [] c c := same rfl rfl rfl

theorem trans (h : Lays ns c d) (h' : Lays ks d e) : Lays (ns ++ ks) c e where
  shows hs := by
    rw [List.map_append, ← List.append_assoc]
    exact h'.shows (h.shows hs)
  flushed := by rw [h'.flushed, h.flushed, TokenNode.tokensOf_append, List.reverse_append,
    List.append_assoc]

theorem moves (h : Lays ns c d) (hmoves : Moves d e) : Lays ns c e where
  shows hs := hmoves.shows (h.shows hs)
  flushed := by rw [hmoves.flushed, h.flushed]

theorem flush (h : Lays ns c d) (kind : Kind) :
    Lays (ns ++ TokenNode.ofPending kind d.pending) c (d.flush kind) := by
  refine h.trans ⟨fun hs => ?_, ?_⟩
  · rw [TokenNode.map_tree_ofPending]
    exact hs.flush kind
  · rw [flushed_flush, TokenNode.tokensOf_ofPending, List.reverse_reverse]

end Lays

/-! ## One call, one node -/

/-- The node is added, and nothing is left over. -/
structure LaysOne (n : TokenNode) (c d : Cursor σ) : Prop where
  lays : Lays [n] c d
  tokens_ne_nil : n.tokens ≠ []
  pending : d.pending = []
  held : d.held = []

namespace LaysOne

/-- Tokens accepted in a node of their own. -/
theorem node (hp : c.pending = []) (h : Moves c.start.2 d) (hne : d.pending ≠ [])
    (hh : d.held = []) (kind : Kind) :
    LaysOne ⟨kind, d.pending.reverse⟩ c (d.flushRaw.complete c.start.1 kind) where
  lays := by
    have hflushed : c.start.2.flushed = c.flushed := by
      rw [start_of_pending hp]
    refine ⟨fun {f fs} hs => ?_, ?_⟩
    · have hstart := hs.start.1
      have hleaves := (Emits.flushRaw d).shows (h.shows hstart)
      have hnode := hleaves.complete hs.start.2 kind
      rw [hp, flushTrees_nil, List.append_nil, List.nil_append,
        show d.flushRaw.pending = [] from rfl, flushTrees_nil, List.append_nil] at hnode
      exact hnode
    · rw [flushed_complete, TokenNode.tokensOf_singleton, List.reverse_reverse]
      show d.pending ++ d.flushed = _
      rw [h.flushed, hflushed]
  tokens_ne_nil := by simpa using hne
  pending := pending_complete _ _ _
  held := (held_complete _ _ _).trans hh

/-- The next token as a node. -/
theorem token (hp : c.pending = []) (hh : c.held = []) {t : Token} {rest : List Token}
    (ha : c.ahead = t :: rest) (kind : Kind) : LaysOne ⟨kind, [t]⟩ c (c.bump.flush kind) := by
  have hlays := ((Lays.refl c).moves (.bump c)).flush kind
  rw [pending_bump hp hh ha] at hlays
  exact ⟨hlays, List.cons_ne_nil _ _, pending_flush _ _, (held_flush _ _).trans (held_bump ha)⟩

/-- The cursor stands behind the node. -/
theorem position_ne (h : LaysOne n c d) (hp : c.pending = []) (hh : c.held = [])
    (ho : c.overrun ≤ d.overrun) : d.position ≠ c.position := by
  have hlength := List.length_pos_iff.mpr h.tokens_ne_nil
  simp only [position, accepted, h.lays.flushed, h.pending, h.held, hp, hh,
    TokenNode.tokensOf_singleton, List.length_append, List.length_reverse, List.length_nil]
  omega

theorem ensureProgress (h : LaysOne n c d) (hp : c.pending = []) (hh : c.held = [])
    (ho : c.overrun ≤ d.overrun) : EmbeddedCode.ensureProgress c.position d = d := by
  unfold EmbeddedCode.ensureProgress
  rw [if_neg fun hstuck => h.position_ne hp hh ho hstuck.1]

end LaysOne

theorem ensureProgress_self (hne : c.ahead ≠ []) :
    EmbeddedCode.ensureProgress c.position c = c.bump.flush .metacode := by
  unfold EmbeddedCode.ensureProgress
  rw [if_pos ⟨rfl, by simpa [atEnd] using hne⟩]

/-! ## What sample code claims last -/

/-- The token accepted last is no line ending, unless the source is over behind it. -/
def EndsInside (c : Cursor σ) : Prop := ∀ t ∈ c.pending.head?, t.kind = .newline → c.ahead = []

theorem endsInside_bump (h : ∀ t ∈ c.ahead.head?, t.kind ≠ .newline) : EndsInside c.bump := by
  unfold Cursor.bump
  split
  · next ha => exact fun _ _ _ => ha
  · next t rest ha =>
    intro u hu hk
    obtain rfl : t = u := by simpa using hu
    exact absurd hk (h t (by simp [ha]))

theorem endsInside_bumpWhile {test : Token → Bool} (ht : ∀ t, test t = true → t.kind ≠ .newline)
    (hh : c.held = []) (h : EndsInside c) : EndsInside (c.bumpWhile test) := by
  intro t hmem hk
  have hrun : c.ahead.take (c.runLength test 0) = c.ahead.takeWhile test :=
    (List.prefix_iff_eq_take.mp (List.takeWhile_prefix test)).symm
  rw [bumpWhile, bumpN_eq hh] at hmem ⊢
  dsimp only at hmem ⊢
  rw [hrun] at hmem
  rcases List.eq_nil_or_concat (c.ahead.takeWhile test) with hnone | ⟨front, u, hsome⟩
  · rw [hnone, List.reverse_nil, List.nil_append] at hmem
    rw [h t hmem hk, List.drop_nil]
  · rw [hsome, List.concat_eq_append, List.reverse_append] at hmem
    obtain rfl : u = t := by simpa using hmem
    have hpass : test u = true := by
      refine List.all_eq_true.mp (List.all_takeWhile (l := c.ahead)) u ?_
      rw [hsome, List.concat_eq_append]
      exact List.mem_append_right _ (List.mem_singleton_self u)
    exact absurd hk (ht u hpass)

theorem endsInside_balancedFrom {b : Brackets} (hb : b.Marks) {ts : List Token} {depth : Nat}
    (ha : c.ahead = ts) (hs : ∀ t ∈ c.tokens, t.Spelled) :
    EndsInside (balancedFrom b depth ts c) := by
  induction ts generalizing depth c with
  | nil => exact fun _ _ _ => ha
  | cons t ts ih =>
    have ht : t.Spelled := hs t (by simp [tokens, ha])
    unfold balancedFrom
    split
    · next count hclosing =>
      -- no bracket is found in a line ending
      have hk : t.kind ≠ .newline := by
        intro hk
        rw [Brackets.findClosing_plain depth fun ch hch =>
          hb.lineEnd ((ht.lineEnd ch hch).mpr hk)] at hclosing
        cases hclosing
      refine endsInside_bump fun u hu => ?_
      unfold splitAfter at hu
      rw [ha] at hu
      dsimp only at hu
      split at hu
      · obtain rfl : _ = u := by simpa using hu
        exact hk
      · obtain rfl : t = u := by simpa [ha] using hu
        exact hk
    · exact ih (by simp [Cursor.bump, ha]) (by rwa [tokens_bump])

theorem endsInside_groups {bound : Nat} (h : EndsInside c) (hs : ∀ t ∈ c.tokens, t.Spelled) :
    EndsInside (c.groups bound) := by
  induction bound generalizing c with
  | zero => exact h
  | succ bound ih =>
    have hkeep (b : Brackets) : ∀ t ∈ (c.balanced b).tokens, t.Spelled :=
      ((Moves.acceptKeeps c).balanced b (.refl c)).tokens Token.divisible_spelled hs
    unfold groups
    split
    · exact ih (endsInside_balancedFrom Brackets.marks_round rfl hs) (hkeep _)
    · split
      · exact ih (endsInside_balancedFrom Brackets.marks_square rfl hs) (hkeep _)
      · exact h

theorem endsInside_expressionBody (h : EndsInside c) (hs : ∀ t ∈ c.tokens, t.Spelled) :
    EndsInside c.expressionBody := by
  unfold expressionBody
  split
  · exact endsInside_balancedFrom Brackets.marks_round rfl hs
  · split
    · exact endsInside_balancedFrom Brackets.marks_curly rfl hs
    · split
      · next hname =>
        have hsplit := Moves.splitAfter c (nameLength c.currentText)
        refine endsInside_groups (endsInside_bump fun t ht => ?_) ?_
        · have hk : c.current = .text := by simpa [at?] using (Bool.and_eq_true_iff.mp hname).1
          obtain ⟨u, rest, ha⟩ := List.exists_cons_of_ne_nil (ahead_ne_nil_of_nth hk (by decide))
          rw [current_cons ha] at hk
          unfold splitAfter at ht
          rw [ha] at ht
          dsimp only at ht
          split at ht
          · obtain rfl : _ = t := by simpa using ht
            simp [hk]
          · obtain rfl : u = t := by simpa [ha] using ht
            simp [hk]
        · exact (hsplit.trans (.bump _)).tokens Token.divisible_spelled hs
      · exact h

/-! ## Code on a line -/

/-- A cursor at which code may be called on a line. -/
structure OnLine (c : Cursor σ) : Prop where
  held : c.held = []
  pending : c.pending = []
  overrun : c.overrun = 0
  spelled : ∀ t ∈ c.tokens, t.Spelled
  unasked : c.context.ephemeralLineEnding = false

/-- A call makes a node. -/
structure CallNode (asks wraps : Prop) (kind : Kind) (n : TokenNode) (c d : Cursor σ) : Prop
    extends LaysOne n c d where
  made : n.kind = kind ∨ n.kind = .metacode ∧ ∀ t ∈ n.tokens, t.kind ≠ .newline
  /-- The ending of the line is asked for. -/
  asked : d.context.ephemeralLineEnding = true → asks ∧ n.kind = kind
  /-- A line ending is claimed last. -/
  ends : Token.EndsLine n.tokens → wraps ∨ d.ahead = []

theorem CallNode.mono {asks wraps asks' wraps' : Prop} (h : CallNode asks wraps kind n c d)
    (ha : asks → asks') (hw : wraps → wraps') : CallNode asks' wraps' kind n c d where
  toLaysOne := h.toLaysOne
  made := h.made
  asked hflag := (h.asked hflag).imp ha id
  ends hline := (h.ends hline).imp hw id

/-- A call that claims nothing makes a node of the next token. -/
theorem calls_skip (asks wraps : Prop) (h : OnLine c) (hne : c.ahead ≠ [])
    (hk : c.current ≠ .newline) :
    ∃ n, CallNode asks wraps kind n c (c.bump.flush .metacode) ∧ n.kind = .metacode := by
  obtain ⟨t, rest, ha⟩ := List.exists_cons_of_ne_nil hne
  rw [current_cons ha] at hk
  refine ⟨_, ⟨.token h.pending h.held ha _, .inr ⟨rfl, by simpa using hk⟩, fun hflag => ?_, ?_⟩, rfl⟩
  · rw [context_flush, context_bump, h.unasked] at hflag
    cases hflag
  · rintro ⟨u, hu, hnewline⟩
    obtain rfl : t = u := by simpa using hu
    exact absurd hnewline hk

/-- Accepted tokens as a node of code or of a comment. -/
theorem calls_node (asks wraps : Prop) (h : OnLine c) (hmoves : Moves c.start.2 d)
    (hne : d.pending ≠ []) (hh : d.held = []) (hends : wraps ∨ EndsInside d) (kind : Kind) :
    CallNode asks wraps kind ⟨kind, d.pending.reverse⟩ c (d.flushRaw.complete c.start.1 kind) where
  toLaysOne := .node h.pending hmoves hne hh kind
  made := .inl rfl
  asked hflag := by
    rw [context_complete, show d.flushRaw.context = d.context from rfl, hmoves.context,
      show c.start.2.context = c.context from context_flush c _, h.unasked] at hflag
    cases hflag
  ends := by
    rintro ⟨t, ht, hk⟩
    rw [List.getLast?_reverse] at ht
    rw [ahead_complete]
    exact hends.imp id fun hinside => hinside t ht hk

theorem spelled_start (h : OnLine c) : ∀ t ∈ c.start.2.tokens, t.Spelled := by
  rw [tokens_start]
  exact h.spelled

/-- An implicit expression is one node, or nothing. -/
theorem implicitExpression_calls (h : OnLine c) : c.implicitExpression = c ∨
    ∃ n, CallNode False False .codeBlock n c c.implicitExpression := by
  unfold implicitExpression
  dsimp only
  generalize c.runLength (·.kind == .whitespace) 0 = blanks
  split
  · next hk =>
    have hheld : c.start.2.held = [] := (held_start c).trans h.held
    have hbump := Moves.bumpN c.start.2 (blanks + 1)
    have hlt : blanks < c.ahead.length := lt_length_of_nth (by rw [hk]; decide)
    have hnth : c.ahead[blanks].kind = .transition := by
      simpa [nth, Token.kindAt, hlt] using hk
    have hopen : (c.start.2.bumpN (blanks + 1)).pending =
        c.ahead[blanks] :: (c.ahead.take blanks).reverse := by
      rw [bumpN_eq hheld]
      show (c.start.2.ahead.take (blanks + 1)).reverse ++ c.start.2.pending = _
      rw [ahead_start, show c.start.2.pending = [] from pending_flush c _,
        List.take_succ_eq_append_getElem hlt, List.append_nil, List.reverse_append]
      rfl
    have hinside : EndsInside (c.start.2.bumpN (blanks + 1)) := by
      intro t ht hnewline
      rw [hopen] at ht
      obtain rfl : c.ahead[blanks] = t := by simpa using ht
      rw [hnth] at hnewline
      cases hnewline
    have hspelled := hbump.tokens Token.divisible_spelled (spelled_start h)
    refine .inr ⟨_, calls_node _ _ h (hbump.trans (.expressionBody _)) ?_ ?_
      (.inr (endsInside_expressionBody hinside hspelled)) _⟩
    · exact (accepts_expressionBody _).pending_ne_nil (by rw [hopen]; simp)
    · exact held_expressionBody (held_bumpN hheld _)
  · exact .inl rfl

theorem inlineComment_calls (h : OnLine c) (hk : c.current = .commentOpen) :
    ∃ n, CallNode False False .inlineComment n c c.inlineComment ∧ n.kind = .inlineComment := by
  unfold inlineComment
  rw [if_pos (by simpa [at?] using hk)]
  dsimp only
  have hheld : c.start.2.held = [] := (held_start c).trans h.held
  have hne : c.start.2.ahead ≠ [] := by
    rw [ahead_start]
    exact ahead_ne_nil_of_nth hk (by decide)
  have hbody := (Moves.bump c.start.2).trans (.bumpWhile _ (·.kind != .commentClose))
  refine ⟨_, calls_node _ _ h (hbody.trans (.eat _ .commentClose)) ?_ ?_ (.inr ?_) _, rfl⟩
  · exact ((Accepts.bumpWhile _ (·.kind != .commentClose)).trans
      (.eat _ .commentClose)).pending_ne_nil (pending_bump_ne_nil hne)
  · exact held_eat (held_bumpN (held_bump_of_held hheld) _) _
  · have hstop {t rest} := @test_of_ahead_bumpWhile σ c.start.2.bump (·.kind != .commentClose) t rest
    generalize c.start.2.bump.bumpWhile (·.kind != .commentClose) = d at hstop
    intro t ht hnewline
    cases ha : d.ahead with
    | nil =>
      unfold Cursor.eat
      split
      · rw [bump_nil ha, ha]
      · exact ha
    | cons u rest =>
      have hclose : u.kind = .commentClose := by simpa using hstop ha
      have heat : (d.eat .commentClose).2 = d.bump := by
        simp [Cursor.eat, at?, current_cons ha, hclose]
      rw [heat] at ht
      obtain rfl : u = t := by simpa [Cursor.bump, ha] using ht
      rw [hclose] at hnewline
      cases hnewline

end Cursor

/-- Code whose calls make one node each on a line. CallNode may ask for the ending of the line, or claim
it. -/
structure EmbeddedCode.LineWise {σ : Type} (code : EmbeddedCode σ) (asks wraps : Prop) : Prop where
  block {c : Cursor σ} : c.OnLine → c.ahead ≠ [] → c.current ≠ .newline →
    ∃ n, c.CallNode asks wraps .codeBlock n (code.block c)
  comment {c : Cursor σ} : c.OnLine → c.current = .commentOpen →
    ∃ n, c.CallNode False False .inlineComment n (code.comment c) ∧
      (asks ∨ wraps → n.kind = .inlineComment)

namespace Cursor

variable {σ : Type} {asks wraps : Prop} {c : Cursor σ}

/-! ## Sample code on a line -/

theorem CallNode.ensureProgress {kind : Kind} {n : TokenNode} {d : Cursor σ}
    (h : CallNode asks wraps kind n c d) (hc : OnLine c) :
    CallNode asks wraps kind n c (EmbeddedCode.ensureProgress c.position d) := by
  rw [h.toLaysOne.ensureProgress hc.pending hc.held (by rw [hc.overrun]; exact Nat.zero_le _)]
  exact h

theorem implicitBlock_calls (asks wraps : Prop) (h : OnLine c) (hne : c.ahead ≠ []) (hk : c.current ≠ .newline) :
    ∃ n, CallNode asks wraps .codeBlock n c
      (EmbeddedCode.ensureProgress c.position c.implicitExpression) := by
  rcases implicitExpression_calls h with hnone | ⟨n, hcalls⟩
  · obtain ⟨n, hskip, -⟩ := calls_skip asks wraps h hne hk
    rw [hnone, ensureProgress_self hne]
    exact ⟨n, hskip⟩
  · exact ⟨n, (hcalls.ensureProgress h).mono False.elim False.elim⟩

/-- What every sample but one makes of a comment. -/
theorem inlineComment_makes (h : OnLine c) (hk : c.current = .commentOpen) :
    ∃ n, CallNode False False .inlineComment n c
        (EmbeddedCode.ensureProgress c.position c.inlineComment) ∧ n.kind = .inlineComment := by
  obtain ⟨n, hcalls, hkind⟩ := inlineComment_calls h hk
  exact ⟨n, hcalls.ensureProgress h, hkind⟩

theorem lineWise_implicit (asks wraps : Prop) :
    (EmbeddedCode.implicit : EmbeddedCode σ).LineWise asks wraps where
  block h hne hk := implicitBlock_calls _ _ h hne hk
  comment h hk := by
    obtain ⟨n, hcalls, hkind⟩ := inlineComment_makes h hk
    exact ⟨n, hcalls, fun _ => hkind⟩

theorem lineWise_nothing (ha : ¬ asks) (hw : ¬ wraps) :
    (EmbeddedCode.nothing : EmbeddedCode σ).LineWise asks wraps where
  block {c} h hne hk := by
    obtain ⟨n, hskip, -⟩ := calls_skip asks wraps h hne hk
    refine ⟨n, ?_⟩
    show CallNode asks wraps .codeBlock n c (EmbeddedCode.ensureProgress c.position c)
    rw [ensureProgress_self hne]
    exact hskip
  comment {c} h hk := by
    have hne : c.ahead ≠ [] := ahead_ne_nil_of_nth hk (by decide)
    obtain ⟨n, hskip, -⟩ := calls_skip False False h hne (by rw [hk]; decide)
    refine ⟨n, ?_, fun hor => absurd hor (not_or.mpr ⟨ha, hw⟩)⟩
    show CallNode False False .inlineComment n c (EmbeddedCode.ensureProgress c.position c)
    rw [ensureProgress_self hne]
    exact hskip

theorem CallNode.asking {kind : Kind} {n : TokenNode} {d : Cursor σ}
    (h : CallNode asks wraps kind n c d) (ha : asks) (hk : n.kind = kind) :
    CallNode asks wraps kind n c
      { d with context := { d.context with ephemeralLineEnding := true } } where
  lays := ⟨fun hs => (h.lays.shows hs).same rfl rfl rfl, h.lays.flushed⟩
  tokens_ne_nil := h.tokens_ne_nil
  pending := h.pending
  held := h.held
  made := h.made
  asked _ := ⟨ha, hk⟩
  ends := h.ends

theorem parseBlock_statement (c : Cursor σ) : EmbeddedCode.statement.parseBlock c = c.statement := by
  unfold EmbeddedCode.statement
  dsimp only

/-- A statement asks for the line ending behind it. -/
theorem lineWise_statement (ha : asks) :
    (EmbeddedCode.statement : EmbeddedCode σ).LineWise asks wraps where
  block {c} h hne hk := by
    have hheld : c.start.2.held = [] := (held_start c).trans h.held
    have hstart : c.start.2.ahead ≠ [] := by rwa [ahead_start]
    have hmoves := (Moves.bump c.start.2).trans (.bumpWhile _ (·.kind == .text))
    have hfirst : EndsInside c.start.2.bump := by
      refine endsInside_bump fun t ht => ?_
      obtain ⟨rest, ha⟩ := List.head?_eq_some_iff.mp ht
      rw [ahead_start] at ha
      rwa [current_cons ha] at hk
    have hinside : EndsInside (c.start.2.bump.bumpWhile (·.kind == .text)) := by
      refine endsInside_bumpWhile (fun t ht => ?_) (held_bump_of_held hheld) hfirst
      rw [beq_iff_eq.mp ht]
      decide
    have hcalls := calls_node asks wraps h hmoves
      ((Accepts.bumpWhile _ (·.kind == .text)).pending_ne_nil (pending_bump_ne_nil hstart))
      (held_bumpN (held_bump_of_held hheld) _) (.inr hinside) .codeBlock
    rw [EmbeddedCode.block, parseBlock_statement]
    exact ⟨_, (hcalls.asking ha rfl).ensureProgress h⟩
  comment h hk := by
    obtain ⟨n, hcalls, hkind⟩ := inlineComment_makes h hk
    exact ⟨n, hcalls, fun _ => hkind⟩

/-- A line of code claims its ending. -/
theorem lineWise_line (hw : wraps) : (EmbeddedCode.line : EmbeddedCode σ).LineWise asks wraps where
  block {c} h hne hk := by
    have hheld : c.start.2.held = [] := (held_start c).trans h.held
    have hstart : c.start.2.ahead ≠ [] := by rwa [ahead_start]
    have hmoves := (Moves.bumpWhile c.start.2 (·.kind != .newline)).trans (.eat _ .newline)
    have hsome : ((c.start.2.bumpWhile (·.kind != .newline)).eat .newline).2.pending ≠ [] := by
      obtain ⟨n, hn⟩ := bump_through hstart .newline
      rw [hn]
      exact (Accepts.bumpN _ n).pending_ne_nil (pending_bump_ne_nil hstart)
    have hcalls := calls_node asks wraps h hmoves hsome
      (held_eat (held_bumpN hheld _) _) (.inl hw) .codeBlock
    rw [EmbeddedCode.block, parseBlock_line]
    exact ⟨_, hcalls.ensureProgress h⟩
  comment h hk := by
    obtain ⟨n, hcalls, hkind⟩ := inlineComment_makes h hk
    exact ⟨n, hcalls, fun _ => hkind⟩

/-- What is recorded is the host's affair. -/
theorem lineWise_recorder (asks wraps : Prop) : EmbeddedCode.recorder.LineWise asks wraps where
  block {c} h hne hk := by
    have hrecord : OnLine { c with host := c.host ++ [c.context.whitespaceSignificant] } :=
      ⟨h.held, h.pending, h.overrun, h.spelled, h.unasked⟩
    obtain ⟨n, hcalls⟩ := implicitBlock_calls asks wraps hrecord hne hk
    refine ⟨n, ⟨⟨⟨fun hs => hcalls.lays.shows (hs.same rfl rfl rfl), hcalls.lays.flushed⟩,
      hcalls.tokens_ne_nil, hcalls.pending, hcalls.held⟩, hcalls.made, hcalls.asked, hcalls.ends⟩⟩
  comment h hk := by
    obtain ⟨n, hcalls, hkind⟩ := inlineComment_makes h hk
    exact ⟨n, hcalls, fun _ => hkind⟩

end Cursor

namespace Sample

/-- Only statements ask for the ending of a line, and only lines of code claim it. -/
theorem lineWise (sample : Sample) :
    sample.code.LineWise (sample = .statement) (sample = .line) := by
  cases sample with
  | implicit => exact Cursor.lineWise_implicit _ _
  | statement => exact Cursor.lineWise_statement rfl
  | nothing => exact Cursor.lineWise_nothing (by decide) (by decide)
  | line => exact Cursor.lineWise_line rfl
  | recorder => exact Cursor.lineWise_recorder _ _

end Sample

end TemplateMarkup
