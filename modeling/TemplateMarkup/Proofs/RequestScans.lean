import TemplateMarkup.Proofs.Indentation
import TemplateMarkup.Proofs.Requests
import TemplateMarkup.Proofs.SingleLine

/-! # Requests in scans

A scan answers a request in its first step, if it takes one. So when it stops with a
request that is open, either it took no step since the request was made, or it
has stopped directly behind the code. -/

namespace TemplateMarkup

open TemplateMarkup.Tree Region

namespace Cursor

variable {σ : Type} {code : EmbeddedCode σ} {c d e : Cursor σ} {kind : Kind} {n : TokenNode}
  {site : Site} {rs : List Region} {place : LinePlace} {P Q : Site → List Region → Prop}

/-! ## Calls -/

/-- A call makes one node of the tokens from where it left off in the source. -/
structure Makes (kind : Kind) (n : TokenNode) (c d : Cursor σ) : Prop extends LaysOne n c d where
  kind_eq : n.kind = kind
  tokens_eq : d.tokens = c.tokens
  overrun_eq : d.overrun = c.overrun

theorem overrun_bumpN (c : Cursor σ) (n : Nat) : (c.bumpN n).overrun = c.overrun := by
  induction n generalizing c with
  | zero => rfl
  | succ n ih =>
    rw [bumpN, ih]
    unfold bump
    split <;> rfl

theorem overrun_complete (c : Cursor σ) (m : Marker) (kind : Kind) :
    (c.complete m kind).overrun = c.overrun := by
  unfold complete
  dsimp only
  split <;> exact overrun_flush c _

/-- Tokens are accepted as a node. -/
theorem makes_node (hp : c.pending = []) (hh : c.held = []) (hne : c.ahead ≠ []) (n : Nat)
    (kind : Kind) : ∃ node, Makes kind node c
      (((c.start.2.bump.bumpN n).flushRaw).complete c.start.1 kind) := by
  have hstart : c.start.2.ahead ≠ [] := by rwa [ahead_start]
  have hmoves := (Moves.bump c.start.2).trans (.bumpN _ n)
  have hsome : (c.start.2.bump.bumpN n).pending ≠ [] :=
    (Accepts.bumpN _ n).pending_ne_nil (pending_bump_ne_nil hstart)
  have hheld : (c.start.2.bump.bumpN n).held = [] :=
    held_bumpN (held_bump_of_held ((held_start c).trans hh)) n
  refine ⟨_, LaysOne.node hp hmoves hsome hheld kind, rfl, by simp, ?_⟩
  exact (overrun_complete _ _ _).trans ((overrun_bumpN c.start.2 (n + 1)).trans (overrun_flush c _))

theorem fault_of_node {n : Nat}
    (h : (((c.start.2.bump.bumpN n).flushRaw).complete c.start.1 kind).fault = none) :
    c.fault = none := by
  have hraw : (c.start.2.bump.bumpN n).flushRaw.fault = none := fault_of_complete h
  exact (fault_flush c .literal).symm.trans ((Shifts.bumpN c.start.2 (n + 1)).fault hraw)

theorem fault_ensureProgress (before : Nat) (c : Cursor σ) :
    (EmbeddedCode.ensureProgress before c).fault = c.fault := by
  unfold EmbeddedCode.ensureProgress
  split
  · rw [fault_flush, Shifts.fault_bump]
  · rfl

namespace Makes

theorem asking (h : Makes kind n c d) :
    Makes kind n c { d with context := { d.context with ephemeralLineEnding := true } } where
  lays := ⟨fun hs => (h.lays.shows hs).same rfl rfl rfl, h.lays.flushed⟩
  tokens_ne_nil := h.tokens_ne_nil
  pending := h.pending
  held := h.held
  kind_eq := h.kind_eq
  tokens_eq := h.tokens_eq
  overrun_eq := h.overrun_eq

theorem ensureProgress (h : Makes kind n c d) (hp : c.pending = []) (hh : c.held = []) :
    EmbeddedCode.ensureProgress c.position d = d :=
  h.toLaysOne.ensureProgress hp hh (Nat.le_of_eq h.overrun_eq.symm)

/-- The node has the tokens that came next. -/
theorem coming (h : Makes kind n c d) : c.coming = n.tokens ++ d.coming := by
  have htokens := h.tokens_eq
  rw [tokens_eq_coming, tokens_eq_coming, h.lays.flushed, TokenNode.tokensOf_singleton,
    List.reverse_append, List.reverse_reverse, List.append_assoc] at htokens
  exact (List.append_cancel_left htokens).symm

end Makes

end Cursor

/-- Each call makes one node. No text token comes behind code, which might have asked for a line
ending. -/
structure EmbeddedCode.MakesNodes {σ : Type} (code : EmbeddedCode σ) : Prop where
  fault_block {c : Cursor σ} : (code.block c).fault = none → c.fault = none
  fault_comment {c : Cursor σ} : (code.comment c).fault = none → c.fault = none
  block {c : Cursor σ} : c.pending = [] → c.held = [] → c.ahead ≠ [] →
    ∃ n, c.Makes .codeBlock n (code.block c) ∧ (code.block c).current ≠ .text
  comment {c : Cursor σ} : c.pending = [] → c.held = [] → c.current = .commentOpen →
    ∃ n, c.Makes .inlineComment n (code.comment c) ∧ (code.comment c).context = c.context

namespace Cursor

variable {σ : Type} {c d : Cursor σ}

theorem current_bumpWhile_ne (c : Cursor σ) (kind : Kind) (hkind : kind ≠ .endOfInput) :
    (c.bumpWhile (·.kind == kind)).current ≠ kind := by
  have hstop {t rest} := @test_of_ahead_bumpWhile σ c (·.kind == kind) t rest
  cases ha : (c.bumpWhile (·.kind == kind)).ahead with
  | nil => simpa [current, nth, Token.kindAt, ha] using hkind.symm
  | cons t rest => simpa [current_cons ha] using hstop ha

theorem exists_bumpN (c : Cursor σ) (test : Token → Bool) (kind : Kind) :
    ∃ n, ((c.bumpWhile test).eat kind).2 = c.bumpN n := by
  unfold eat
  split
  · exact ⟨_ + 1, bump_bumpN c _⟩
  · exact ⟨_, rfl⟩

theorem inlineComment_eq (hk : c.current = .commentOpen) : ∃ n, c.inlineComment =
    ((c.start.2.bump.bumpN n).flushRaw).complete c.start.1 .inlineComment := by
  obtain ⟨n, hn⟩ := exists_bumpN c.start.2.bump (·.kind != .commentClose) .commentClose
  exact ⟨n, by rw [inlineComment, if_pos (by simpa [at?] using hk), ← hn]⟩

theorem makesNodes_statement : (EmbeddedCode.statement : EmbeddedCode σ).MakesNodes where
  fault_block {c} h := by
    rw [EmbeddedCode.block, parseBlock_statement, fault_ensureProgress] at h
    unfold statement at h
    dsimp only at h
    exact fault_of_node h
  fault_comment {c} h := by
    have h : (EmbeddedCode.ensureProgress c.position c.inlineComment).fault = none := h
    rw [fault_ensureProgress] at h
    by_cases hk : c.current = .commentOpen
    · obtain ⟨n, hn⟩ := inlineComment_eq hk
      rw [hn] at h
      exact fault_of_node h
    · rwa [inlineComment, if_neg (by simpa [at?] using hk)] at h
  block {c} hp hh hne := by
    obtain ⟨n, hnode⟩ :=
      makes_node hp hh hne (c.start.2.bump.runLength (·.kind == .text) 0) .codeBlock
    have hnext := current_bumpWhile_ne c.start.2.bump .text (by decide)
    have hcurrent : (((c.start.2.bump.bumpWhile (·.kind == .text)).flushRaw).complete c.start.1
        .codeBlock).current ≠ .text := by
      rwa [current, nth, ahead_complete]
    rw [EmbeddedCode.block, parseBlock_statement]
    unfold statement
    dsimp only
    rw [← bumpWhile] at hnode
    generalize ((c.start.2.bump.bumpWhile (·.kind == .text)).flushRaw).complete c.start.1
      .codeBlock = d at hnode hcurrent ⊢
    rw [hnode.asking.ensureProgress hp hh]
    exact ⟨n, hnode.asking, hcurrent⟩
  comment {c} hp hh hk := by
    have hne : c.ahead ≠ [] := ahead_ne_nil_of_nth hk (by decide)
    have hcontext := context_inlineComment c
    obtain ⟨count, hcount⟩ := inlineComment_eq hk
    obtain ⟨n, hnode⟩ := makes_node hp hh hne count .inlineComment
    rw [← hcount] at hnode
    show ∃ n, Makes .inlineComment n c (EmbeddedCode.ensureProgress c.position c.inlineComment) ∧
      (EmbeddedCode.ensureProgress c.position c.inlineComment).context = c.context
    rw [hnode.ensureProgress hp hh]
    exact ⟨n, hnode, hcontext⟩

end Cursor

namespace Cursor

variable {σ : Type} {code : EmbeddedCode σ} {c d e : Cursor σ} {kind : Kind} {n : TokenNode}
  {site : Site} {rs : List Region} {place : LinePlace} {stop : Cursor σ → Bool}

/-! ## Steps -/

/-- A request made by the code directly in front, at the site of the scan. -/
inductive Fresh (c : Cursor σ) (site : Site) : List Region → Prop
  | intro {front : List Region} {code : Region} : code.kind = .codeBlock → code.site = site →
      c.pending = [] → c.current ≠ .text → Fresh c site (front ++ [code])

/-- What is known at a step of a scan. In a value nothing is accepted in front of an answer. -/
structure Scans (c : Cursor σ) (site : Site) (rs : List Region) : Prop where
  answered : Answered rs
  asked : c.context.ephemeralLineEnding = true →
    c.held = [] ∧ (Fresh c site rs ∨ Due c rs ∧ (site = .value → c.pending = []))

/-- With no request the line endings so far are all. -/
def AnsweredAt (_ : Site) (rs : List Region) : Prop := Answered rs

theorem AnsweredAt.scans (h : AnsweredAt site rs) (hflag : c.context.ephemeralLineEnding = false) :
    Scans c site rs where
  answered := h
  asked hasked := by
    rw [hflag] at hasked
    cases hasked

theorem fault_acceptRead (h : c.acceptRead.fault = none) : c.fault = none := by
  unfold acceptRead at h
  split at h
  · exact h
  · exact (Shifts.fail c _).fault h

theorem fault_advance (c : Cursor σ) : c.advance.fault = c.fault := by
  unfold advance
  split <;> rfl

namespace Carries

theorem acceptRead {P Q : Site → List Region → Prop} (hPQ : ∀ site rs, P site rs → Q site rs) :
    Carries P Q c c.acceptRead :=
  .still (fun _ hs => (Moves.acceptRead c).shows hs) fault_acceptRead hPQ

theorem bump {P Q : Site → List Region → Prop} (hPQ : ∀ site rs, P site rs → Q site rs) :
    Carries P Q c c.bump :=
  .still (fun _ hs => (Moves.bump c).shows hs) (Shifts.fault_bump c).symm.trans hPQ

/-- Accepted tokens become a node without a line ending that is not rendered. -/
theorem flushRendered (hkind : kind.holdsTokens = true)
    (hplain : kind = .ephemeral → ∀ t ∈ c.pending, t.kind ≠ .newline) :
    Carries AnsweredAt AnsweredAt c (c.flush kind) := by
  refine .flush hkind (fun _ _ _ h => h) fun _ site rs h => ?_
  refine h.concat fun hline => ?_
  obtain ⟨hephemeral, t, ht, hnewline⟩ := hline
  exact absurd hnewline (hplain hephemeral t (List.mem_reverse.mp ht))

theorem flushLiteral : Carries AnsweredAt AnsweredAt c (c.flush .literal) := flushRendered rfl fun h => absurd h (by decide)

end Carries

/-- A scan accepts what stands in front of an answer. -/
theorem carries_answer (hflag : c.context.ephemeralLineEnding = true) :
    Carries (Scans c) (fun _ rs => Answered rs ∧ Allows rs) c
      ({ c with context.ephemeralLineEnding := false }.acceptRead.flush .literal) := by
  have hsame : Carries (Scans c) (Scans c) c { c with context.ephemeralLineEnding := false } :=
    .still (fun _ hs => hs.same rfl rfl rfl) id fun _ _ h => h
  have hpending : { c with context.ephemeralLineEnding := false }.acceptRead.pending =
      c.held ++ c.pending := pending_acceptRead _
  refine (hsame.trans (.acceptRead fun _ _ h => h)).trans ?_
  refine .flush rfl (fun hp site rs h => ?_) fun hp site rs h => ?_
  · obtain ⟨-, hfresh | ⟨hdue, -⟩⟩ := h.asked hflag
    · cases hfresh with
      | intro hcode => exact ⟨h.answered, .direct (.inl hcode)⟩
    · exact ⟨h.answered, hdue.allows⟩
  · obtain ⟨hheld, hfresh | ⟨hdue, hvalue⟩⟩ := h.asked hflag
    · cases hfresh with
      | intro _ _ hnone => exact absurd (by rw [hpending, hheld, hnone]; rfl) hp
    · rw [hpending, hheld, List.nil_append] at hp ⊢
      have hpassive : Passive ⟨⟨.literal, c.pending.reverse⟩, site⟩ := by simp [Passive]
      refine ⟨h.answered.rendered hpassive.2, .late (hdue.concat hpassive ?_ ?_)⟩
      · exact fun hsite => hp (hvalue hsite)
      · intro hfirst
        obtain ⟨t, ht, hcoming⟩ := exists_first_pending hp
        exact ⟨t, ht, hfirst t hcoming⟩

theorem carries_endLine (hp : c.pending = []) (hh : c.held = [])
    (hflag : c.context.ephemeralLineEnding = false) :
    Carries (fun _ rs => Answered rs ∧ Allows rs) (Scans c.endLine.2) c c.endLine.2 := by
  have hfault : c.endLine.2.fault = none → c.fault = none := by
    unfold endLine ephemeralLineEnd
    generalize (if c.at? .whitespace then 1 else 0) = blanks
    dsimp only
    split
    · rw [fault_flush]
      exact (Shifts.bumpN c _).fault
    · exact id
  rcases endLine_lays hp hh with hnone | ⟨blanks, t, -, -, -, hnode, hcontext⟩
  · rw [hnone]
    exact .still (fun _ hs => hs) id fun _ _ h => AnsweredAt.scans h.1 hflag
  · refine .one (t := TokenNode.tree ⟨.ephemeral, blanks ++ [t]⟩) (fun f fs hs => hnode.lays.shows hs)
      hfault fun site rs h => ?_
    rw [regions_tree rfl]
    exact AnsweredAt.scans (h.1.concat fun _ => h.2) (by rw [hcontext, hflag])

theorem carries_beforeCode (place : LinePlace) (c : Cursor σ) :
    Carries AnsweredAt AnsweredAt c (c.beforeCode place) := by
  have hback : Carries AnsweredAt AnsweredAt c c.putBack :=
    .still (fun _ hs => (Moves.putBack c).shows hs) id fun _ _ h => h
  unfold beforeCode
  split
  · exact hback.trans .flushLiteral
  · exact (Carries.acceptRead fun _ _ h => h).trans .flushLiteral

theorem carries_beforeComment (hblanks : HoldsBlanks place c) :
    Carries AnsweredAt AnsweredAt c (c.beforeComment place) := by
  have hread : Carries AnsweredAt AnsweredAt c (c.flush .literal).acceptRead :=
    Carries.flushLiteral.trans (.acceptRead fun _ _ h => h)
  have hpending : (c.flush .literal).acceptRead.pending = c.held := by
    rw [pending_acceptRead, held_flush, pending_flush, List.append_nil]
  unfold beforeComment
  refine hread.trans (.flushRendered ?_ fun hkind => ?_)
  · split <;> rfl
  · split at hkind
    · next hplace =>
      obtain ⟨t, hheld, ht⟩ := hblanks hplace
      intro u hu
      rw [hpending, hheld, List.mem_singleton] at hu
      rw [hu, ht]
      decide
    · cases hkind

theorem carries_unasked (c : Cursor σ) : Carries (Scans c) AnsweredAt c c :=
  .still (fun _ hs => hs) id fun _ _ h => h.answered

/-- A call leaves its node. -/
theorem carries_node {P Q : Site → List Region → Prop} (h : Makes kind n c d)
    (hfault : d.fault = none → c.fault = none) (hkind : kind.holdsTokens = true)
    (hliteral : kind ≠ .literal)
    (hPQ : ∀ site rs, P site rs → Q site (rs ++ [⟨n, site⟩])) : Carries P Q c d := by
  have htokens : n.kind.holdsTokens = true := by rw [h.kind_eq, hkind]
  have hnode : n.kind ≠ .literal := by rwa [h.kind_eq]
  refine .one (t := n.tree) (fun f fs hs => h.lays.shows hs) hfault fun site rs hP => ?_
  rw [regions_tree htokens, TokenNode.tree, Site.behind_node hnode]
  exact hPQ site rs hP

/-- A comment is read in front of an answer. -/
theorem carries_comment (hcode : code.MakesNodes) (hblanks : HoldsBlanks place c)
    (hk : c.current = .commentOpen) (hflag : c.context.ephemeralLineEnding = false) :
    Carries (Scans c) (fun _ rs => Answered rs ∧ Allows rs) c (code.comment (c.beforeComment place)) ∧
      (code.comment (c.beforeComment place)).pending = [] ∧
      (code.comment (c.beforeComment place)).held = [] ∧
      (code.comment (c.beforeComment place)).context.ephemeralLineEnding = false := by
  obtain ⟨hheld, hpending⟩ := left_beforeComment place c
  have hcurrent : (c.beforeComment place).current = .commentOpen := by
    rwa [current, nth, ahead_beforeComment]
  obtain ⟨n, hmakes, hcontext⟩ := hcode.comment hpending hheld hcurrent
  have hbefore := (carries_unasked c).trans (carries_beforeComment hblanks)
  have hunasked : (code.comment (c.beforeComment place)).context.ephemeralLineEnding = false := by
    rw [hcontext, context_beforeComment, hflag]
  refine ⟨hbefore.trans ?_, hmakes.pending, hmakes.held, hunasked⟩
  refine carries_node hmakes hcode.fault_comment rfl (by decide) fun site rs h => ?_
  exact ⟨Answered.rendered h (by simp [hmakes.kind_eq]), .direct (.inr hmakes.kind_eq)⟩

/-- A step of a scan. -/
theorem carries_scanStep (hcode : code.MakesNodes) (hblanks : HoldsBlanks place c)
    (hne : c.ahead ≠ []) :
    Carries (Scans c) (Scans (c.scanStep code place).2) c (c.scanStep code place).2 := by
  have ho := scanStep_outcome code place c
  generalize c.scanStep code place = r at ho ⊢
  cases ho with
  | lineEnding hflag =>
    exact (carries_answer hflag).trans (carries_endLine (pending_flush _ _)
      ((held_flush _ _).trans (held_acceptRead _)) (by simp))
  | newline hflag =>
    exact .bump fun site rs h => AnsweredAt.scans h.answered (by simpa using hflag)
  | doubled hflag hk =>
    have hplain : ∀ t ∈ (c.acceptRead.flush .literal).bump.pending, t.kind ≠ .newline := by
      obtain ⟨t, rest, ha⟩ := List.exists_cons_of_ne_nil hne
      intro u hu
      have hu : u = t := by simpa [bump, ha] using hu
      rw [hu, ← current_cons ha, hk]
      decide
    have hread := (carries_unasked c).trans (.acceptRead fun _ _ h => h)
    have hfirst := (hread.trans .flushLiteral).trans (.bump fun _ _ h => h)
    exact (hfirst.trans (.flushRendered rfl fun _ => hplain)).trans
      (.bump fun site rs h => AnsweredAt.scans h (by simpa using hflag))
  | code hflag hk =>
    obtain ⟨hheld, hpending⟩ := left_beforeCode place c
    obtain ⟨n, hmakes, hnext⟩ := hcode.block hpending hheld (ahead_beforeCode_ne_nil hne place)
    have hbefore := (carries_unasked c).trans (carries_beforeCode place c)
    refine hbefore.trans ?_
    refine carries_node hmakes hcode.fault_block rfl (by decide) fun site rs h => ⟨?_, fun _ => ?_⟩
    · exact Answered.rendered h (by simp [hmakes.kind_eq])
    · exact ⟨hmakes.held, .inl (.intro hmakes.kind_eq rfl hmakes.pending hnext)⟩
  | comment hflag hk =>
    obtain ⟨hcomment, -, -, hunasked⟩ := carries_comment hcode hblanks hk hflag
    exact hcomment.mono (fun _ _ h => h) fun site rs h => AnsweredAt.scans h.1 hunasked
  | commentLine hflag hk =>
    obtain ⟨hcomment, hpending, hheld, hunasked⟩ := carries_comment hcode hblanks hk hflag
    exact hcomment.trans (carries_endLine hpending hheld hunasked)
  | other hflag =>
    have hread := (carries_unasked c).trans (.acceptRead fun _ _ h => h)
    refine hread.trans (.still (fun _ hs => (Moves.advance _).shows hs) (fault_advance _).symm.trans
      fun site rs h => AnsweredAt.scans h ?_)
    rw [context_advance, context_acceptRead, hflag]

/-! ## Whole scans -/

theorem Scans.acceptRead (h : Scans c site rs) : Scans c.acceptRead site rs where
  answered := h.answered
  asked hasked := by
    rw [context_acceptRead] at hasked
    obtain ⟨hheld, hdue⟩ := h.asked hasked
    have hpending : c.acceptRead.pending = c.pending := by rw [pending_acceptRead, hheld]; rfl
    refine ⟨held_acceptRead c, ?_⟩
    rcases hdue with ⟨hcode, hsite, hnone, hnext⟩ | ⟨hdue, hvalue⟩
    · refine .inl (.intro hcode hsite (hpending.trans hnone) ?_)
      rwa [current, nth, ahead_acceptRead]
    · refine .inr ⟨hdue.shifts ?_, by rwa [hpending]⟩
      simp [Cursor.coming, unflushed, hpending, hheld]

theorem carries_scanFrom (hcode : code.MakesNodes) (stop : Cursor σ → Bool) {bound : Nat}
    (hblanks : HoldsBlanks place c) :
    Carries (Scans c) (Scans (scanFrom code stop bound place c)) c
      (scanFrom code stop bound place c) := by
  induction bound generalizing place c with
  | zero => exact .fail c _
  | succ bound ih =>
    unfold scanFrom
    split
    · exact .acceptRead fun _ _ h => h.acceptRead
    · next hend =>
      have hne : c.ahead ≠ [] := by
        intro hnone
        simp [atEnd, hnone] at hend
      exact (carries_scanStep hcode hblanks hne).trans (ih (holdsBlanks_scanStep hne place))

theorem carries_skipUntil (hcode : code.MakesNodes) (stop : Cursor σ → Bool) (c : Cursor σ) :
    Carries (Scans c) (Scans (c.skipUntil code stop)) c (c.skipUntil code stop) :=
  carries_scanFrom hcode stop (.of_ne (by decide))

theorem carries_skipTo (hcode : code.MakesNodes) (kind : Kind) (c : Cursor σ) :
    Carries (Scans c) (Scans (c.skipTo code kind)) c (c.skipTo code kind) :=
  carries_skipUntil hcode _ c

theorem Stands.scans (h : Stands c site rs) : Scans c site rs where
  answered := h.answered
  asked hasked := ⟨h.held, .inr ⟨h.due hasked, fun hvalue => absurd hvalue h.site_ne⟩⟩

/-- A scan that stops at a text, or at a token at which scans stop, leaves its request over. -/
theorem Scans.stands (h : Scans c site rs) (hsite : site ≠ .value) (hheld : c.held = [])
    (hstop : c.ahead = [] ∨ c.current = .text ∨ c.current.endsScan = true) : Stands c site rs where
  site_ne := hsite
  held := hheld
  answered := h.answered
  due hasked := by
    obtain ⟨-, ⟨hcode, -, hpending, hnext⟩ | ⟨hdue, -⟩⟩ := h.asked hasked
    · refine .direct hcode fun _ t ht => ?_
      have ht : t ∈ c.ahead.head? := by
        simpa [Cursor.coming, unflushed, hpending, hheld] using ht
      obtain ⟨rest, ha⟩ := List.head?_eq_some_iff.mp ht
      rcases hstop with hnone | htext | hends
      · rw [hnone] at ht
        cases ht
      · exact absurd htext hnext
      · rwa [← current_cons ha]
    · exact hdue

theorem Answers.skipUntil (h : Answers c d) (hcode : code.MakesNodes) (htest : KindTest stop)
    (hstop : ∀ e, stop e = true → e.current = .text ∨ e.current.endsScan = true) :
    Answers c (d.skipUntil code stop) := by
  have hscan := (carries_skipUntil hcode stop d).within (K := (· ≠ .value))
    fun _ t hsite => Site.behind_ne_value hsite t
  refine h.trans ((hscan.mono (fun _ _ hd => ⟨hd.site_ne, hd.scans⟩) fun _ _ he => he).ends ?_)
  exact fun hfault _ _ he => he.2.stands he.1 (held_scanFrom hfault)
    ((stop_scanFrom htest hfault).imp_right (hstop _))

theorem Answers.skipTo (h : Answers c d) (hcode : code.MakesNodes) (hkind : kind.endsScan = true) :
    Answers c (d.skipTo code kind) := by
  refine h.skipUntil hcode (kindTest_at kind) fun e hstop => .inr ?_
  rwa [eq_of_beq hstop]

end Cursor

end TemplateMarkup
