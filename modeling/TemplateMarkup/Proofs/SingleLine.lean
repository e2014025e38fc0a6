import TemplateMarkup.Proofs.FreeScans
import TemplateMarkup.Proofs.Outcome
import TemplateMarkup.Proofs.Takes
import TemplateMarkup.Proofs.TokenNodes
import TemplateMarkup.Tree.Outline

/-! # Single-line markup

Markup behind `@:` goes to the end of its line. The scan looks for the line ending
between its steps only, and a step may claim a line ending that is not rendered: the
one behind code that has asked for it, or behind a comment on a line of its own. The
markup then goes on with the next line (`Continues`). Every other line ending of the
markup is its last token (`OneLine`). -/

namespace TemplateMarkup

open TemplateMarkup.Tree Cursor

/-! ## Beginnings and ends of lines -/

namespace Token

variable {ts us : List Token} {t : Token}

/-- Only blanks stand behind the last line ending. -/
def BeginsLine (ts : List Token) : Prop :=
  ∃ lines blanks, ts = lines ++ blanks ∧ EndsLine lines ∧ ∀ t ∈ blanks, t.kind = .whitespace

theorem EndsLine.beginsLine (h : EndsLine ts) : BeginsLine ts :=
  ⟨ts, [], (List.append_nil ts).symm, h, nofun⟩

theorem BeginsLine.blank (h : BeginsLine ts) (ht : t.kind = .whitespace) :
    BeginsLine (ts ++ [t]) := by
  obtain ⟨lines, blanks, rfl, hend, hblanks⟩ := h
  refine ⟨lines, blanks ++ [t], List.append_assoc .., hend, ?_⟩
  intro u hu
  rcases List.mem_append.mp hu with hu | hu
  · exact hblanks u hu
  · rwa [List.mem_singleton.mp hu]

theorem endsLine_append (hne : us ≠ []) : EndsLine (ts ++ us) ↔ EndsLine us := by
  rw [EndsLine, EndsLine, List.getLast?_append_of_ne_nil _ hne]

theorem endsLine_snoc (ts : List Token) (ht : t.kind = .newline) : EndsLine (ts ++ [t]) :=
  ⟨t, List.getLast?_concat, ht⟩

theorem not_endsLine_snoc (ht : t.kind ≠ .newline) : ¬ EndsLine (ts ++ [t]) := by
  rintro ⟨u, hu, hk⟩
  rw [List.getLast?_concat] at hu
  cases hu
  exact ht hk

end Token

/-! ## The nodes of a line -/

namespace TokenNode

variable {asks wraps : Prop} {ns ks before after : List TokenNode} {n k : TokenNode}

/-- Code and comments are no markup. -/
def IsMarkup (n : TokenNode) : Prop := n.kind ≠ .codeBlock ∧ n.kind ≠ .inlineComment

/-- No line ending belongs to the markup. -/
def Plain (n : TokenNode) : Prop := n.IsMarkup → ∀ t ∈ n.tokens, t.kind ≠ .newline

theorem plain_ofPending (kind : Kind) {ts : List Token} (h : ∀ t ∈ ts, t.kind ≠ .newline) :
    ∀ n ∈ ofPending kind ts, n.Plain := by
  intro n hn _ t ht
  unfold ofPending at hn
  split at hn
  · cases hn
  · rw [List.mem_singleton.mp hn] at ht
    exact h t (List.mem_reverse.mp ht)

/-- Behind these nodes the markup goes on after the end of a line: behind code that asks for
that, or behind a comment on a line of its own. -/
inductive Continues (asks wraps : Prop) : List TokenNode → Prop
  | asked {front : List TokenNode} {code : TokenNode} :
      asks → code.kind = .codeBlock → Continues asks wraps (front ++ [code])
  | ownLine {front : List TokenNode} {comment : TokenNode} :
      asks ∨ wraps → comment.kind = .inlineComment → Token.BeginsLine (tokensOf front) →
      Continues asks wraps (front ++ [comment])

theorem Continues.asks_or_wraps (h : Continues asks wraps ns) : asks ∨ wraps := by
  cases h with
  | asked h => exact .inl h
  | ownLine h => exact h

/-- Every line ending of the markup is one that is passed. -/
inductive Unbroken (asks wraps : Prop) : List TokenNode → Prop
  | nil : Unbroken asks wraps []
  | plain {ns : List TokenNode} {n : TokenNode} :
      Unbroken asks wraps ns → n.Plain → Unbroken asks wraps (ns ++ [n])
  | passed {ns : List TokenNode} {blanks : List Token} {t : Token} :
      Unbroken asks wraps ns → Continues asks wraps ns → (∀ b ∈ blanks, b.kind = .whitespace) →
      t.kind = .newline → Unbroken asks wraps (ns ++ [⟨.ephemeral, blanks ++ [t]⟩])

theorem Unbroken.plains (h : Unbroken asks wraps ns) (hk : ∀ k ∈ ks, k.Plain) :
    Unbroken asks wraps (ns ++ ks) := by
  induction ks generalizing ns with
  | nil => rwa [List.append_nil]
  | cons k ks ih =>
    rw [List.append_cons]
    exact ih (h.plain (hk k (List.mem_cons_self ..))) fun n hn => hk n (List.mem_cons_of_mem k hn)

/-- A line ending of the markup is the last token, unless it is passed. -/
def OneLine (asks wraps : Prop) (ns : List TokenNode) : Prop :=
  ∀ ⦃before n after⦄, ns = before ++ n :: after → n.IsMarkup →
    ∀ ⦃front t back⦄, n.tokens = front ++ t :: back → t.kind = .newline →
      back = [] ∧ (after = [] ∨ n.kind = .ephemeral ∧ Continues asks wraps before)

/-- A node stands last, or in front of the last. -/
theorem snoc_cases (h : ns ++ [k] = before ++ n :: after) :
    (ns = before ∧ k = n ∧ after = []) ∨ ∃ mid, after = mid ++ [k] ∧ ns = before ++ n :: mid := by
  rcases List.eq_nil_or_concat after with rfl | ⟨mid, last, rfl⟩
  · obtain ⟨hns, hk⟩ := List.append_inj' h rfl
    exact .inl ⟨hns, List.singleton_inj.mp hk, rfl⟩
  · rw [List.concat_eq_append, ← List.cons_append, ← List.append_assoc] at h
    obtain ⟨hns, hk⟩ := List.append_inj' h rfl
    exact .inr ⟨mid, by rw [List.concat_eq_append, hk], hns⟩

/-- A token that is the last of its kind is the last one of all. -/
theorem back_eq_nil {ts front back : List Token} {t u : Token} (hts : ∀ v ∈ ts, v.kind ≠ .newline)
    (h : ts ++ [u] = front ++ t :: back) (hk : t.kind = .newline) : back = [] := by
  rcases List.eq_nil_or_concat back with hback | ⟨mid, last, rfl⟩
  · exact hback
  · rw [List.concat_eq_append, ← List.cons_append, ← List.append_assoc] at h
    obtain ⟨rfl, -⟩ := List.append_inj' h rfl
    exact absurd hk (hts t (by simp))

theorem Unbroken.passes (h : Unbroken asks wraps ns) (hns : ns = before ++ n :: after)
    (hmarkup : n.IsMarkup) {front back : List Token} {t : Token}
    (htokens : n.tokens = front ++ t :: back) (hk : t.kind = .newline) :
    back = [] ∧ n.kind = .ephemeral ∧ Continues asks wraps before := by
  induction h generalizing after with
  | nil => simp at hns
  | plain _ hplain ih =>
    rcases snoc_cases hns with ⟨-, rfl, -⟩ | ⟨mid, -, hmid⟩
    · exact absurd hk (hplain hmarkup t (by rw [htokens]; simp))
    · exact ih hmid
  | passed _ hgoes hblanks _ ih =>
    rcases snoc_cases hns with ⟨rfl, rfl, -⟩ | ⟨mid, -, hmid⟩
    · exact ⟨back_eq_nil (fun v hv => by rw [hblanks v hv]; nofun) htokens hk, rfl, hgoes⟩
    · exact ih hmid

/-- A literal that may end in a line ending finishes the line. -/
theorem Unbroken.oneLine (h : Unbroken asks wraps ns) {pending : List Token}
    (hpending : ∀ t ∈ pending.tail, t.kind ≠ .newline) :
    OneLine asks wraps (ns ++ ofPending .literal pending) := by
  intro before n after hns hmarkup front t back htokens hk
  cases pending with
  | nil =>
    rw [ofPending_nil, List.append_nil] at hns
    obtain ⟨hback, hgoes⟩ := h.passes hns hmarkup htokens hk
    exact ⟨hback, .inr hgoes⟩
  | cons u rest =>
    rcases snoc_cases hns with ⟨-, rfl, rfl⟩ | ⟨mid, rfl, hmid⟩
    · rw [List.reverse_cons] at htokens
      exact ⟨back_eq_nil (fun v hv => hpending v (List.mem_reverse.mp hv)) htokens hk, .inl rfl⟩
    · obtain ⟨hback, hgoes⟩ := h.passes hmid hmarkup htokens hk
      exact ⟨hback, .inr hgoes⟩

end TokenNode

namespace Cursor

open TokenNode

variable {σ : Type} {code : EmbeddedCode σ} {asks wraps strict : Prop} {base : List Event}
  {ms : List Marker} {c₀ c d : Cursor σ} {place : LinePlace} {ns : List TokenNode} {n : TokenNode}

/-! ## What a step of the scan keeps -/

/-- The scan of a line has added the nodes and is about to take a step. -/
structure ScansLine (asks wraps : Prop) (c₀ : Cursor σ) (place : LinePlace) (ns : List TokenNode)
    (c : Cursor σ) : Prop where
  lays : Lays ns c₀ c
  unbroken : Unbroken asks wraps ns
  plain : ∀ t ∈ c.held ++ c.pending, t.kind ≠ .newline
  asked : c.context.ephemeralLineEnding = true →
    c.held = [] ∧ c.pending = [] ∧ Continues asks wraps ns
  begins : place ≠ .inside →
    (asks ∨ wraps) ∧ Token.BeginsLine (tokensOf ns ++ (c.held ++ c.pending).reverse)
  ends : Token.EndsLine (tokensOf ns) → (asks ∨ wraps) ∨ c.ahead = []
  blanks : HoldsBlanks place c

/-- A call adds its node. -/
theorem ScansLine.call {d : Cursor σ} (hlays : Lays ns c₀ c) (hunbroken : Unbroken asks wraps ns)
    (hcall : LaysOne n c d) (hplain : n.Plain)
    (hasked : d.context.ephemeralLineEnding = true → asks ∧ n.kind = .codeBlock)
    (hends : Token.EndsLine n.tokens → (asks ∨ wraps) ∨ d.ahead = []) :
    ScansLine asks wraps c₀ .inside (ns ++ [n]) d where
  lays := hlays.trans hcall.lays
  unbroken := hunbroken.plain hplain
  plain := by
    rw [hcall.held, hcall.pending]
    exact fun _ ht => absurd ht List.not_mem_nil
  asked hflag := by
    obtain ⟨hasks, hkind⟩ := hasked hflag
    exact ⟨hcall.held, hcall.pending, .asked hasks hkind⟩
  begins h := absurd rfl h
  ends hline := by
    rw [tokensOf_append, tokensOf_singleton, Token.endsLine_append hcall.tokens_ne_nil] at hline
    exact hends hline
  blanks := .of_ne (by decide)

theorem CallNode.plain {kind : Kind} (h : CallNode asks wraps kind n c d)
    (hk : kind = .codeBlock ∨ kind = .inlineComment) : n.Plain := by
  intro hmarkup
  rcases h.made with rfl | ⟨-, htokens⟩
  · exact absurd hk (not_or.mpr hmarkup)
  · exact htokens

/-- The end of a line that is not rendered is one node. -/
theorem endLine_lays (hp : c.pending = []) (hh : c.held = []) : c.endLine = (.inside, c) ∨
    ∃ blanks t, (∀ b ∈ blanks, b.kind = Kind.whitespace) ∧ t.kind = .newline ∧
      c.endLine.1 = .start ∧ LaysOne ⟨.ephemeral, blanks ++ [t]⟩ c c.endLine.2 ∧
      c.endLine.2.context = c.context := by
  have hblanks : ∀ b ∈ c.ahead.take (if c.at? .whitespace then 1 else 0),
      b.kind = Kind.whitespace := by
    intro b hb
    split at hb
    · next hat =>
      cases ha : c.ahead with
      | nil => simp [ha] at hb
      | cons t rest =>
        rw [ha, List.take_one] at hb
        obtain rfl : b = t := by simpa using hb
        simpa [at?, current_cons ha] using hat
    · simp at hb
  unfold endLine ephemeralLineEnd
  generalize (if c.at? .whitespace then 1 else 0) = count at hblanks ⊢
  dsimp only
  by_cases hk : c.nth count = .newline
  · have hlt : count < c.ahead.length := lt_length_of_nth (by rw [hk]; decide)
    have hnewline : c.ahead[count].kind = .newline := by
      simpa [nth, Token.kindAt, hlt] using hk
    have hpending : (c.bumpN (count + 1)).pending.reverse =
        c.ahead.take count ++ [c.ahead[count]] := by
      rw [bumpN_eq hh]
      dsimp only
      rw [hp, List.append_nil, List.reverse_reverse, List.take_succ_eq_append_getElem hlt]
    have hlays := ((Lays.refl c).moves (.bumpN c (count + 1))).flush .ephemeral
    have hnode : ofPending .ephemeral (c.bumpN (count + 1)).pending =
        [⟨.ephemeral, c.ahead.take count ++ [c.ahead[count]]⟩] := by
      rw [ofPending, hpending, if_neg]
      intro hnone
      rw [hnone, List.reverse_nil] at hpending
      exact List.append_ne_nil_of_right_ne_nil _ (List.cons_ne_nil _ _) hpending.symm
    rw [hnode] at hlays
    rw [if_pos hk]
    refine .inr ⟨_, _, hblanks, hnewline, rfl, ⟨hlays, ?_, pending_flush _ _, ?_⟩, ?_⟩
    · exact List.append_ne_nil_of_right_ne_nil _ (List.cons_ne_nil _ _)
    · rw [held_flush, held_bumpN hh]
    · rw [context_flush, context_bumpN]
  · left
    simp [if_neg hk]

/-- Where the end of a line is passed, the scan goes on behind it. -/
theorem ScansLine.endLine (h : ScansLine asks wraps c₀ .inside ns c) (hp : c.pending = [])
    (hh : c.held = []) (hflag : c.context.ephemeralLineEnding = false)
    (hgoes : Continues asks wraps ns) : ∃ ks, ScansLine asks wraps c₀ c.endLine.1 ks c.endLine.2 := by
  rcases endLine_lays hp hh with he | ⟨blanks, t, hblanks, ht, hplace, hnode, hcontext⟩
  · rw [he]
    exact ⟨ns, h⟩
  · refine ⟨_, h.lays.trans hnode.lays, h.unbroken.passed hgoes hblanks ht, ?_, ?_, ?_, ?_, ?_⟩
    · rw [hnode.held, hnode.pending]
      exact fun _ ht => absurd ht List.not_mem_nil
    · rw [hcontext, hflag]
      exact fun hasked => absurd hasked Bool.false_ne_true
    · intro _
      rw [hnode.held, hnode.pending, tokensOf_append, tokensOf_singleton, ← List.append_assoc,
        List.append_nil, List.reverse_nil, List.append_nil]
      exact ⟨hgoes.asks_or_wraps, (Token.endsLine_snoc _ ht).beginsLine⟩
    · exact fun _ => .inl hgoes.asks_or_wraps
    · rw [hplace]
      exact .of_ne (by decide)

/-- Blanks are handed over with code or stay in front of it. -/
theorem ScansLine.beforeCode (h : ScansLine asks wraps c₀ place ns c) :
    ∃ ks, Lays ks c₀ (c.beforeCode place) ∧ Unbroken asks wraps ks := by
  unfold Cursor.beforeCode
  split
  · refine ⟨_, (h.lays.moves (.putBack c)).flush .literal, h.unbroken.plains ?_⟩
    exact plain_ofPending _ fun t ht => h.plain t (List.mem_append_right _ ht)
  · refine ⟨_, (h.lays.moves (.acceptRead c)).flush .literal, h.unbroken.plains ?_⟩
    rw [pending_acceptRead]
    exact plain_ofPending _ h.plain

theorem ScansLine.current_beforeCode (h : ScansLine asks wraps c₀ place ns c)
    (hk : c.current ≠ .newline) : (c.beforeCode place).current ≠ .newline := by
  unfold Cursor.beforeCode
  split
  · next hindent =>
    obtain ⟨t, hheld, ht⟩ := h.blanks hindent.1
    have ha : (c.putBack.flush .literal).ahead = t :: c.ahead := by
      rw [ahead_flush, ahead_putBack, hheld]
      rfl
    rw [current_cons ha, ht]
    decide
  · rwa [current, nth, ahead_flush, ahead_acceptRead]

theorem ScansLine.beforeComment (h : ScansLine asks wraps c₀ place ns c) :
    ∃ ks, Lays ks c₀ (c.beforeComment place) ∧ Unbroken asks wraps ks ∧
      tokensOf ks = tokensOf ns ++ (c.held ++ c.pending).reverse := by
  have hpending : (c.flush .literal).acceptRead.pending = c.held := by
    rw [pending_acceptRead, held_flush, pending_flush, List.append_nil]
  have hlays := ((h.lays.flush .literal).moves (.acceptRead _)).flush
    (if place = .indent then .ephemeral else .literal)
  rw [hpending] at hlays
  refine ⟨_, hlays, (h.unbroken.plains ?_).plains ?_, ?_⟩
  · exact plain_ofPending _ fun t ht => h.plain t (List.mem_append_right _ ht)
  · exact plain_ofPending _ fun t ht => h.plain t (List.mem_append_left _ ht)
  · simp

/-- A comment that a scan takes for the first of its line stands at the beginning of one. -/
theorem ScansLine.leading (h : ScansLine asks wraps c₀ place ns c) {t : Token} {rest : List Token}
    (hbehind : c₀.flushed = t :: rest) (ht : t.kind ≠ .newline) (hne : c.ahead ≠ [])
    (hlead : place ≠ .inside ∨ c.atLineStart = true) :
    (asks ∨ wraps) ∧ Token.BeginsLine (tokensOf ns ++ (c.held ++ c.pending).reverse) := by
  rcases hlead with hplace | hstart
  · exact h.begins hplace
  · have hflushed := h.lays.flushed
    rw [hbehind] at hflushed
    unfold atLineStart previous? at hstart
    cases hread : c.held ++ c.pending with
    | cons u us =>
      rw [hread] at hstart
      exact absurd (by simpa using hstart) (h.plain u (by rw [hread]; exact List.mem_cons_self ..))
    | nil =>
      rw [hread, List.nil_append, hflushed] at hstart
      rw [List.reverse_nil, List.append_nil]
      rcases List.eq_nil_or_concat (tokensOf ns) with hnone | ⟨front, u, hsome⟩
      · rw [hnone] at hstart
        exact absurd (by simpa using hstart) ht
      · rw [List.concat_eq_append] at hsome
        have hu : u.kind = .newline := by simpa [hsome] using hstart
        have hline : Token.EndsLine (tokensOf ns) := hsome ▸ Token.endsLine_snoc front hu
        exact ⟨(h.ends hline).resolve_right hne, hline.beginsLine⟩

/-- Nothing is pending once the line ending that was asked for is looked for. -/
theorem ScansLine.unask (h : ScansLine asks wraps c₀ place ns c)
    (hflag : c.context.ephemeralLineEnding = true) : ScansLine asks wraps c₀ .inside ns
      ({ c with context.ephemeralLineEnding := false }.acceptRead.flush .literal) := by
  obtain ⟨hheld, hpending, -⟩ := h.asked hflag
  have hsame : Lays [] c { c with context.ephemeralLineEnding := false } := .same rfl rfl rfl
  have hcontext : { c with context.ephemeralLineEnding := false }.context.ephemeralLineEnding =
      false := rfl
  have hnone : { c with context.ephemeralLineEnding := false }.acceptRead.pending = [] := by
    rw [pending_acceptRead, List.append_eq_nil_iff]
    exact ⟨hheld, hpending⟩
  have hahead : { c with context.ephemeralLineEnding := false }.ahead = c.ahead := rfl
  generalize { c with context.ephemeralLineEnding := false } = d at hsame hcontext hnone hahead ⊢
  have hlays := ((h.lays.trans hsame).moves (.acceptRead d)).flush .literal
  rw [hnone, ofPending_nil, List.append_nil, List.append_nil] at hlays
  refine ⟨hlays, h.unbroken, ?_, ?_, fun hplace => absurd rfl hplace, ?_, .of_ne (by decide)⟩
  · rw [held_flush, held_acceptRead, pending_flush]
    exact fun _ ht => absurd ht List.not_mem_nil
  · rw [context_flush, context_acceptRead, hcontext]
    exact fun hasked => absurd hasked Bool.false_ne_true
  · rw [ahead_flush, ahead_acceptRead, hahead]
    exact h.ends

/-- Of a doubled `@` the second is read on, the first is a node. -/
theorem ScansLine.doubled (h : ScansLine asks wraps c₀ place ns c)
    (hflag : c.context.ephemeralLineEnding = false) (hk : c.current = .transition)
    (hk' : c.nth 1 = .transition) : ∃ ks, ScansLine asks wraps c₀ .inside ks
      ((c.acceptRead.flush .literal).bump.flush .ephemeral).bump := by
  obtain ⟨t, rest, ha⟩ := List.exists_cons_of_ne_nil (ahead_ne_nil_of_nth hk (by decide))
  have ht : t.kind = .transition := (current_cons ha).symm.trans hk
  obtain ⟨u, rest', rfl⟩ : ∃ u rest', rest = u :: rest' := by
    refine List.exists_cons_of_ne_nil ?_
    rintro rfl
    simp [nth, Token.kindAt, ha] at hk'
  have hu : u.kind = .transition := by simpa [nth, Token.kindAt, ha] using hk'
  have hread := (h.lays.moves (.acceptRead c)).flush .literal
  have hahead : (c.acceptRead.flush .literal).ahead = t :: u :: rest' := by
    rw [ahead_flush, ahead_acceptRead, ha]
  have hplain : Unbroken asks wraps (ns ++ ofPending .literal c.acceptRead.pending) := by
    rw [pending_acceptRead]
    exact h.unbroken.plains (plain_ofPending _ h.plain)
  have hcontext : (c.acceptRead.flush .literal).context = c.context := by
    rw [context_flush, context_acceptRead]
  have hnode := LaysOne.token (pending_flush _ _)
    ((held_flush _ _).trans (held_acceptRead c)) hahead .ephemeral
  generalize ns ++ ofPending .literal c.acceptRead.pending = ks at hread hplain
  generalize c.acceptRead.flush .literal = d at hread hahead hcontext hnode ⊢
  have hnext : (d.bump.flush .ephemeral).ahead = u :: rest' := by
    rw [ahead_flush, ahead_bump, hahead, List.tail_cons]
  have hpending := pending_bump hnode.pending hnode.held hnext
  have htail : Unbroken asks wraps (ks ++ [⟨.ephemeral, [t]⟩]) :=
    hplain.plain fun _ v hv => by rw [List.mem_singleton.mp hv, ht]; decide
  refine ⟨_, (hread.trans hnode.lays).moves (.bump _), htail, ?_, ?_,
    fun hplace => absurd rfl hplace, fun hline => ?_, .of_ne (by decide)⟩
  · intro v hv
    rw [held_bump hnext, hpending, List.nil_append, List.mem_singleton] at hv
    rw [hv, hu]
    decide
  · rw [context_bump, context_flush, context_bump, hcontext, hflag]
    exact fun hasked => absurd hasked Bool.false_ne_true
  · rw [tokensOf_append, tokensOf_singleton] at hline
    exact absurd hline (Token.not_endsLine_snoc (by rw [ht]; decide))

/-- Any other token is read. -/
theorem ScansLine.read (h : ScansLine asks wraps c₀ place ns c) {t : Token} {rest : List Token}
    (ha : c.ahead = t :: rest) (hk : c.current ≠ .newline)
    (hflag : c.context.ephemeralLineEnding = false) :
    ScansLine asks wraps c₀ (if c.current = .whitespace ∧ place ≠ .inside then .indent else .inside)
      ns c.acceptRead.advance := by
  have hread : c.acceptRead.advance.held ++ c.acceptRead.advance.pending =
      t :: (c.held ++ c.pending) := by
    simp [advance, ha, pending_acceptRead]
  rw [current_cons ha] at hk ⊢
  refine ⟨(h.lays.moves (.acceptRead c)).moves (.advance _), h.unbroken, ?_, ?_, ?_, ?_, ?_⟩
  · rw [hread]
    intro u hu
    rcases List.mem_cons.mp hu with rfl | hu
    · exact hk
    · exact h.plain u hu
  · rw [context_advance, context_acceptRead, hflag]
    exact fun hasked => absurd hasked Bool.false_ne_true
  · split
    · next hblank =>
      intro _
      obtain ⟨hor, hline⟩ := h.begins hblank.2
      rw [hread, List.reverse_cons, ← List.append_assoc]
      exact ⟨hor, hline.blank hblank.1⟩
    · exact fun hplace => absurd rfl hplace
  · intro hline
    rcases h.ends hline with hor | hnone
    · exact .inl hor
    · rw [hnone] at ha
      cases ha
  · split
    · next hblank => exact fun _ => ⟨t, by simp [advance, ha], hblank.1⟩
    · exact .of_ne (by decide)

/-- A step in front of anything but a line ending. -/
theorem ScansLine.scanStep (hcode : code.LineWise asks wraps) (h : ScansLine asks wraps c₀ place ns c)
    (hs : Sound strict base ms c) (hspelled : ∀ t ∈ c.tokens, t.Spelled) {t : Token}
    {rest : List Token} (hbehind : c₀.flushed = t :: rest) (ht : t.kind ≠ .newline)
    (hne : c.ahead ≠ []) (hk : c.current ≠ .newline) :
    ∃ ks, ScansLine asks wraps c₀ (c.scanStep code place).1 ks (c.scanStep code place).2 := by
  have hcode' (hflag : c.context.ephemeralLineEnding = false) : OnLine (c.beforeCode place) := by
    have hreach := (Reaches.refl hs).beforeCode place
    obtain ⟨hheld, hpending⟩ := left_beforeCode place c
    exact ⟨hheld, hpending, hreach.sound.overrun,
      hreach.path.forall_tokens Token.divisible_spelled hspelled,
      by rw [context_beforeCode, hflag]⟩
  have hcomment (hflag : c.context.ephemeralLineEnding = false) :
      OnLine (c.beforeComment place) := by
    have hreach := (Reaches.refl hs).beforeComment place
    obtain ⟨hheld, hpending⟩ := left_beforeComment place c
    exact ⟨hheld, hpending, hreach.sound.overrun,
      hreach.path.forall_tokens Token.divisible_spelled hspelled,
      by rw [context_beforeComment, hflag]⟩
  have hopen (hat : c.current = .commentOpen) : (c.beforeComment place).current = .commentOpen := by
    rwa [current, nth, ahead_beforeComment]
  have ho := scanStep_outcome code place c
  generalize c.scanStep code place = r at ho ⊢
  cases ho with
  | newline _ hnewline => exact absurd hnewline hk
  | lineEnding hflag =>
    refine (h.unask hflag).endLine (pending_flush _ _) ?_ ?_ (h.asked hflag).2.2
    · rw [held_flush, held_acceptRead]
    · rw [context_flush, context_acceptRead]
  | doubled hflag hat hat' => exact h.doubled hflag hat hat'
  | code hflag hat hat' =>
    obtain ⟨ks, hlays, hunbroken⟩ := h.beforeCode
    obtain ⟨n, hcall⟩ := hcode.block (hcode' hflag) (ahead_beforeCode_ne_nil hne place)
      (h.current_beforeCode hk)
    exact ⟨_, .call hlays hunbroken hcall.toLaysOne (hcall.plain (.inl rfl)) hcall.asked
      fun hline => (hcall.ends hline).imp .inr id⟩
  | comment hflag hat =>
    obtain ⟨ks, hlays, hunbroken, -⟩ := h.beforeComment
    obtain ⟨n, hcall, -⟩ := hcode.comment (hcomment hflag) (hopen hat)
    exact ⟨_, .call hlays hunbroken hcall.toLaysOne (hcall.plain (.inr rfl))
      (fun hasked => (hcall.asked hasked).1.elim)
      fun hline => .inr ((hcall.ends hline).resolve_left id)⟩
  | commentLine hflag hat hlead =>
    obtain ⟨hor, hline⟩ := h.leading hbehind ht hne hlead
    obtain ⟨ks, hlays, hunbroken, htokens⟩ := h.beforeComment
    obtain ⟨n, hcall, hkind⟩ := hcode.comment (hcomment hflag) (hopen hat)
    have hbehind := ScansLine.call hlays hunbroken hcall.toLaysOne (hcall.plain (.inr rfl))
      (fun hasked => (hcall.asked hasked).1.elim)
      fun hends => .inr ((hcall.ends hends).resolve_left id)
    refine hbehind.endLine hcall.pending hcall.held ?_ (.ownLine hor (hkind hor) (htokens ▸ hline))
    exact Bool.eq_false_iff.mpr fun hasked => (hcall.asked hasked).1
  | other hflag hnewline _ _ =>
    obtain ⟨u, us, ha⟩ := List.exists_cons_of_ne_nil hne
    exact ⟨ns, h.read ha hk hflag⟩

/-! ## The line -/

/-- What the scan of a line leaves behind. -/
theorem ScansLine.scanFrom (hl : code.Lawful strict fun _ => True) (hcode : code.LineWise asks wraps)
    {bound : Nat} (h : ScansLine asks wraps c₀ place ns c) (hs : Sound strict base ms c)
    (hspelled : ∀ t ∈ c.tokens, t.Spelled) {t : Token} {rest : List Token}
    (hbehind : c₀.flushed = t :: rest) (ht : t.kind ≠ .newline)
    (hfault : (Cursor.scanFrom code (·.at? .newline) bound place c).fault = none) :
    ∃ ks, Lays ks c₀ (Cursor.scanFrom code (·.at? .newline) bound place c) ∧
      Unbroken asks wraps ks ∧
      ∀ t ∈ (Cursor.scanFrom code (·.at? .newline) bound place c).pending, t.kind ≠ .newline := by
  induction bound generalizing place c ns with
  | zero => simp [Cursor.scanFrom, fail] at hfault
  | succ bound ih =>
    unfold Cursor.scanFrom at hfault ⊢
    split
    · refine ⟨ns, h.lays.moves (.acceptRead c), h.unbroken, ?_⟩
      rw [pending_acceptRead]
      exact h.plain
    · next hstop =>
      rw [if_neg hstop] at hfault
      obtain ⟨hend, hline⟩ : ¬ c.atEnd = true ∧ ¬ c.current = .newline := by
        simpa [at?] using hstop
      have hreach := (Reaches.refl hs).scanStep hl.toStepwise place trivial
      obtain ⟨ks, hstep⟩ := h.scanStep hcode hs hspelled hbehind ht
        (ahead_ne_nil_of_not_atEnd hend) hline
      exact ih hstep hreach.sound (hreach.path.forall_tokens Token.divisible_spelled hspelled) hfault

/-- A line of markup is one line. -/
theorem singleLine_lays (hl : code.Lawful strict fun _ => True) (hcode : code.LineWise asks wraps)
    (hs : Sound strict base ms c) (hline : OnLine c) {t : Token} {rest : List Token}
    (hbehind : c.flushed = t :: rest) (ht : t.kind ≠ .newline) :
    ∃ ks, Lays ks c (c.singleLine code) ∧ (c.singleLine code).pending = [] ∧
      OneLine asks wraps ks := by
  have hsignificant : Sound strict base ms { c with context.whitespaceSignificant := true } :=
    ((Reaches.refl hs).context _).sound
  have hstart : ScansLine asks wraps c .inside []
      { c with context.whitespaceSignificant := true } := by
    refine ⟨.same rfl rfl rfl, .nil, ?_, ?_, fun hplace => absurd rfl hplace, ?_,
      .of_ne (by decide)⟩
    · rw [hline.held, hline.pending]
      exact fun _ ht => absurd ht List.not_mem_nil
    · show c.context.ephemeralLineEnding = true → _
      rw [hline.unasked]
      exact fun hasked => absurd hasked Bool.false_ne_true
    · rintro ⟨u, hu, -⟩
      cases hu
  obtain ⟨ks, hlays, hunbroken, hplain⟩ := hstart.scanFrom hl hcode hsignificant hline.spelled hbehind ht
    (fault_skipUntil hl hsignificant _)
  have hleft := held_skipTo hl hsignificant .newline
  unfold singleLine
  dsimp only
  unfold skipTo skipUntil at hleft ⊢
  generalize Cursor.scanFrom code (·.at? .newline) _ .inside _ = d at hlays hplain hleft ⊢
  have heat : ∀ t ∈ (d.eat .newline).2.pending.tail, t.kind ≠ .newline := by
    unfold Cursor.eat
    split
    · next hat =>
      obtain ⟨u, us, ha⟩ := List.exists_cons_of_ne_nil (ahead_ne_nil_of_at hat (by decide))
      simpa [Cursor.bump, ha, hleft] using hplain
    · exact fun u hu => hplain u (List.mem_of_mem_tail hu)
  have hend := hlays.moves (.eat d .newline)
  generalize (d.eat .newline).2 = e at heat hend ⊢
  have houter : Lays [] e { e with
      context.whitespaceSignificant := c.context.whitespaceSignificant } := .same rfl rfl rfl
  have hlast := (hend.trans houter).flush .literal
  rw [List.append_nil] at hlast
  exact ⟨_, hlast, pending_flush _ _, hunbroken.oneLine heat⟩

/-- The next token becomes a node. -/
theorem OnLine.token (h : OnLine c) {t : Token} {rest : List Token} (ha : c.ahead = t :: rest)
    (kind : Kind) : OnLine (c.bump.flush kind) where
  held := (held_flush _ _).trans (held_bump ha)
  pending := pending_flush _ _
  overrun := by
    rw [overrun_flush, Cursor.bump, ha]
    exact h.overrun
  spelled := by
    rw [tokens_flush, tokens_bump]
    exact h.spelled
  unasked := by rw [context_flush, context_bump, h.unasked]

/-- What a unit of markup makes of a colon behind its `@`. -/
theorem afterTransition_lays (hl : code.Lawful strict fun _ => True)
    (hcode : code.LineWise asks wraps) (hs : Sound strict base ms c) (hline : OnLine c) {t : Token}
    {rest : List Token} (ha : c.ahead = t :: rest) (ht : t.kind = .colon) :
    ∃ ks, Lays (⟨.metacode, [t]⟩ :: ks) c (c.afterTransition code) ∧
      (c.afterTransition code).pending = [] ∧ OneLine asks wraps ks := by
  have hcolon := LaysOne.token hline.pending hline.held ha .metacode
  have hflushed := hcolon.lays.flushed
  rw [tokensOf_singleton, List.reverse_singleton, List.singleton_append] at hflushed
  have hsound := ((Reaches.refl hs).bump.flush .metacode).sound
  obtain ⟨ks, hlays, hpending, hone⟩ := singleLine_lays hl hcode hsound (hline.token ha _) hflushed
    (by rw [ht]; decide)
  unfold afterTransition
  rw [current_cons ha, ht]
  exact ⟨ks, hcolon.lays.trans hlays, hpending, hone⟩

theorem doubledTransition_of_transition {t : Token} {rest : List Token} (ha : c.ahead = t :: rest)
    (ht : t.kind = .transition) : c.doubledTransition = c.bump.flush .metacode := by
  simp [doubledTransition, Cursor.eat, at?, current_cons ha, ht]

theorem doubledTransition_of_other {t : Token} {rest : List Token} (ha : c.ahead = t :: rest)
    (ht : t.kind ≠ .transition) : c.doubledTransition = c := by
  simp [doubledTransition, Cursor.eat, at?, current_cons ha, ht]

/-- A line behind its marks: one `@` or two, and a colon. -/
theorem marks_lays (hl : code.Lawful strict fun _ => True) (hcode : code.LineWise asks wraps)
    (hs : Sound strict base ms c) (hline : OnLine c) {marks rest : List Token}
    (ha : c.ahead = marks ++ rest)
    (hmarks : marks.map Token.kind = [.transition, .colon] ∨
      marks.map Token.kind = [.transition, .transition, .colon]) :
    ∃ lead ks, Lays (lead ++ ks) c
        (((c.bump.flush .markupTransition).doubledTransition).afterTransition code) ∧
      (((c.bump.flush .markupTransition).doubledTransition).afterTransition code).pending = [] ∧
      tokensOf lead = marks ∧ OneLine asks wraps ks := by
  rcases marks with - | ⟨t, - | ⟨u, marks⟩⟩
  · simp at hmarks
  · simp at hmarks
  have hfirst := LaysOne.token hline.pending hline.held ha .markupTransition
  have hsound := ((Reaches.refl hs).bump.flush .markupTransition).sound
  have hahead : (c.bump.flush .markupTransition).ahead = u :: (marks ++ rest) := by
    rw [ahead_flush, ahead_bump, ha]
    rfl
  have hon := hline.token ha .markupTransition
  generalize c.bump.flush .markupTransition = d at hfirst hsound hahead hon ⊢
  rcases hmarks with hmarks | hmarks
  · obtain ⟨-, hu, hnone⟩ : t.kind = .transition ∧ u.kind = .colon ∧ marks = [] := by
      simpa using hmarks
    rw [doubledTransition_of_other hahead (by rw [hu]; decide)]
    obtain ⟨ks, hlays, hpending, hone⟩ := afterTransition_lays hl hcode hsound hon hahead hu
    have hall := hfirst.lays.trans hlays
    rw [List.append_cons] at hall
    exact ⟨_, ks, hall, hpending, by rw [hnone]; rfl, hone⟩
  · rcases marks with - | ⟨v, marks⟩
    · simp at hmarks
    obtain ⟨-, hu, hv, hnone⟩ :
        t.kind = .transition ∧ u.kind = .transition ∧ v.kind = .colon ∧ marks = [] := by
      simpa using hmarks
    have hsecond := LaysOne.token hon.pending hon.held hahead .metacode
    have hbehind : (d.bump.flush .metacode).ahead = v :: (marks ++ rest) := by
      rw [ahead_flush, ahead_bump, hahead]
      rfl
    rw [doubledTransition_of_transition hahead hu]
    obtain ⟨ks, hlays, hpending, hone⟩ := afterTransition_lays hl hcode
      ((Reaches.refl hsound).bump.flush .metacode).sound (hon.token hahead _) hbehind hv
    have hall := (hfirst.lays.trans hsecond.lays).trans hlays
    rw [List.append_cons] at hall
    exact ⟨_, ks, hall, hpending, by rw [hnone]; rfl, hone⟩

/-- A unit of markup that is a line. -/
theorem blockContent_lays (hl : code.Lawful strict fun _ => True)
    (hcode : code.LineWise asks wraps) (hs : Sound strict base ms c) (hline : OnLine c)
    {spaces marks rest : List Token} (ha : c.ahead = spaces ++ (marks ++ rest))
    (hspaces : ∀ t ∈ spaces, t.kind.isTrivia = true)
    (hmarks : marks.map Token.kind = [.transition, .colon] ∨
      marks.map Token.kind = [.transition, .transition, .colon]) :
    ∃ lead ks, Lays (lead ++ ks) c ((c.bumpWhile (·.kind.isTrivia)).blockContent code) ∧
      ((c.bumpWhile (·.kind.isTrivia)).blockContent code).pending = [] ∧
      tokensOf lead = spaces ++ marks ∧ OneLine asks wraps ks := by
  have hfirst : ∀ t ∈ (marks ++ rest).head?, t.kind = .transition := by
    cases marks with
    | nil => rcases hmarks with h | h <;> cases h
    | cons t us =>
      intro v hv
      obtain rfl : t = v := by simpa using hv
      rcases hmarks with h | h <;> exact (List.cons.inj h).1
  have hspacing : c.bumpWhile (·.kind.isTrivia) = c.bumpN spaces.length := by
    refine bumpWhile_eq ha hspaces fun t ht => ?_
    rw [hfirst t ht]
    rfl
  have hread : c.bumpN spaces.length =
      { c with pending := spaces.reverse, ahead := marks ++ rest } := by
    rw [bumpN_eq hline.held, ha, List.take_left, List.drop_left, hline.pending, List.append_nil]
  have hblanks := ((Lays.refl c).moves (.bumpN c spaces.length)).flush .literal
  have hsound := (((Reaches.refl hs).bumpN spaces.length).flush .literal).sound
  have hahead : ((c.bumpN spaces.length).flush .literal).ahead = marks ++ rest := by
    rw [ahead_flush, hread]
  have hon : OnLine ((c.bumpN spaces.length).flush .literal) := by
    refine ⟨(held_flush _ _).trans (held_bumpN hline.held _), pending_flush _ _, hsound.overrun, ?_,
      ?_⟩
    · rw [tokens_flush, tokens_bumpN]
      exact hline.spelled
    · rw [context_flush, context_bumpN, hline.unasked]
  have hpending : (c.bumpN spaces.length).pending = spaces.reverse := by rw [hread]
  have hcurrent : (c.bumpN spaces.length).current = .transition := by
    obtain ⟨t, us, hcons⟩ : ∃ t us, marks ++ rest = t :: us := by
      refine List.exists_cons_of_ne_nil fun hnil => ?_
      rw [(List.append_eq_nil_iff.mp hnil).1] at hmarks
      rcases hmarks with h | h <;> cases h
    have hahead : (c.bumpN spaces.length).ahead = t :: us := by rw [hread, ← hcons]
    rw [current_cons hahead]
    exact hfirst t (by rw [hcons]; rfl)
  obtain ⟨lead, ks, hlays, hnone, htokens, hone⟩ := marks_lays hl hcode hsound hon hahead hmarks
  have hall := hblanks.trans hlays
  rw [List.nil_append, ← List.append_assoc] at hall
  rw [hspacing]
  unfold blockContent
  rw [hcurrent]
  refine ⟨_, ks, hall, hnone, ?_, hone⟩
  rw [tokensOf_append, tokensOf_ofPending, htokens, hpending, List.reverse_reverse]

/-- The tree of a unit in which only nodes of tokens follow each other. -/
theorem tree_of_lays (body : Cursor σ → Cursor σ) {source : List Char} {context : Context} {host : σ}
    (hlays : Lays ns (ofSource source context host).start.2.start.2
      (body (ofSource source context host).start.2))
    (hpending : (body (ofSource source context host).start.2).pending = []) {p : Parse σ}
    (hok : ((ofSource source context host).run fun c =>
      (body c).complete c.start.1 .markupBlock).result = .ok p) :
    ∃ rest, p.tree = .node .root (.node .markupBlock (ns.map TokenNode.tree) :: rest) := by
  have hshows := shows_root source context host
  have hnone : (ofSource source context host).start.2.pending = [] := rfl
  unfold run at hok
  dsimp only at hok
  generalize (ofSource source context host).start.2 = c at *
  obtain ⟨hstart, hm⟩ := hshows.start
  have hunit := (hlays.shows hstart).complete hm .markupBlock
  rw [hpending, hnone, flushTrees_nil, List.append_nil, List.append_nil, List.nil_append,
    List.nil_append] at hunit
  obtain ⟨htree, -⟩ := result_of_shows hunit hok
  rw [List.append_assoc, List.singleton_append] at htree
  exact ⟨_, htree⟩

end Cursor

/-! ## The source -/

namespace Token

/-- The tokens in front of a line. -/
theorem lex_mark {mark : List Char} (h : mark = ['@', ':'] ∨ mark = ['@', '@', ':'])
    (line : List Char) :
    ∃ marks : List Token, lex (mark ++ line) = marks ++ lex line ∧ textOf marks = mark ∧
      (marks.map kind = [.transition, .colon] ∨
        marks.map kind = [.transition, .transition, .colon]) := by
  have hcolon : lex ('@' :: ':' :: line) =
      ⟨.transition, ['@']⟩ :: ⟨.colon, [':']⟩ :: lex line :=
    congrArg (List.cons _) (lex_whole ':' .colon rfl)
  rcases h with rfl | rfl
  · exact ⟨[_, _], hcolon, rfl, .inl rfl⟩
  · have hdoubled : lex ('@' :: '@' :: ':' :: line) =
        ⟨.transition, ['@']⟩ :: ⟨.transition, ['@']⟩ :: ⟨.colon, [':']⟩ :: lex line :=
      congrArg (List.cons _) hcolon
    exact ⟨[_, _, _], hdoubled, rfl, .inr rfl⟩

end Token

namespace Sample

open TokenNode

/-- Markup behind `@:` or `@@:` ends with its line, unless the line ending is one that statements
ask not to be rendered, or one behind a comment on its own line in code that asks for line endings
or claims them. -/
theorem parse_singleLine (sample : Sample) (options : Options) (host : sample.Host)
    {source : String} {blanks mark line : List Char}
    (hsource : source.toList = blanks ++ (mark ++ line))
    (hblanks : ∀ c ∈ blanks, c ∈ [' ', '\t', '\r', '\n'])
    (hmark : mark = ['@', ':'] ∨ mark = ['@', '@', ':']) :
    ∃ p lead content rest,
      Parser.parse ⟨some options, sample.code, host⟩ none source = .ok p ∧
      p.tree = .node .root (.node .markupBlock ((lead ++ content).map TokenNode.tree) :: rest) ∧
      Token.textOf (tokensOf lead) = blanks ++ mark ∧
      OneLine (sample = .statement) (sample = .line) content := by
  obtain ⟨p, hp, -⟩ := Parser.finish_covers sample.lawful options host none source trivial
  have htrivia : ∀ c ∈ blanks, (Form.ofChar c).kind.isTrivia = true := by
    intro c hc
    exact Token.isTrivia_ofChar.mpr (hblanks c hc)
  obtain ⟨marks, hlex, htext, hkinds⟩ := Token.lex_mark hmark line
  obtain ⟨rest', hat⟩ : ∃ rest', mark ++ line = '@' :: rest' := by
    rcases hmark with rfl | rfl <;> exact ⟨_, rfl⟩
  have hmarked : ∀ c ∈ (mark ++ line).head?, (Form.ofChar c).kind.isTrivia = false := by
    rw [hat]
    rintro c ⟨⟩
    rfl
  obtain ⟨happend, hspaces⟩ := Token.lex_trivia_append htrivia hmarked
  rw [hlex, ← hsource] at happend
  have hon : OnLine (ofSource source.toList { options } host).start.2.start.2 := by
    refine ⟨rfl, rfl, rfl, fun t ht => ?_, rfl⟩
    rw [tokens_start, tokens_start, tokens_ofSource] at ht
    exact Token.spelled_of_mem_lex ht
  obtain ⟨lead, content, hlays, hpending, htokens, hone⟩ := blockContent_lays sample.lawful
    sample.lineWise (sound_ofSource True source.toList { options } host) hon happend hspaces hkinds
  obtain ⟨rest, htree⟩ := tree_of_lays
    (fun c => (c.start.2.bumpWhile (·.kind.isTrivia)).blockContent sample.code)
    hlays hpending hp
  refine ⟨p, lead, content, rest, by rw [Parser.parse_eq, hp]; rfl, htree, ?_, hone⟩
  rw [htokens, Token.textOf_append, Token.textOf_lex, htext]

/-- Code claims the first line ending, and the markup ends with the second. -/
theorem parse_singleLine_code : "\t@@:x @a\ny\nz".toList = ['\t'] ++ (['@', '@', ':'] ++
      "x @a\ny\nz".toList) ∧
    ∃ p lead content rest,
      Parser.parse ⟨some {}, Sample.line.code, ()⟩ none "\t@@:x @a\ny\nz" = .ok p ∧
      p.tree = .node .root (.node .markupBlock ((lead ++ content).map TokenNode.tree) :: rest) ∧
      Token.textOf (tokensOf lead) = ['\t'] ++ ['@', '@', ':'] ∧
      OneLine (Sample.line = .statement) (Sample.line = .line) content := by
  have hsource : "\t@@:x @a\ny\nz".toList = ['\t'] ++ (['@', '@', ':'] ++ "x @a\ny\nz".toList) :=
    rfl
  exact ⟨hsource, parse_singleLine .line {} () hsource (by simp) (.inr rfl)⟩

/-- The markup has a line ending that is not rendered, and goes on behind it. -/
def GoesOn {σ : Type} (p : Parse σ) : Prop := p.unparsedText? = none ∧
  [.ephemeral, .whitespace, .newline, .literal, .text] <:+ p.tree.outline.map Tree.Entry.kind

/-- Behind a statement with a blank behind it, and behind a comment that follows a line of code. -/
theorem goesOn_behind_line :
    (∃ p, Parser.parse ⟨some {}, Sample.statement.code, ()⟩ none "@:@a \nb" = .ok p ∧ GoesOn p) ∧
    ∃ p, Parser.parse ⟨some {}, Sample.line.code, ()⟩ none "@:@a\n@* c *@ \nb" = .ok p ∧
      GoesOn p := by
  have hgoes {σ : Type} {result : Except ParseError (Parse σ)}
      (h : result.toOption.any (fun p => p.unparsedText?.isNone &&
        [Kind.ephemeral, .whitespace, .newline, .literal, .text].isSuffixOf
          (p.tree.outline.map Tree.Entry.kind)) = true) : ∃ p, result = .ok p ∧ GoesOn p := by
    obtain ⟨p, hp, hcheck⟩ := Parse.exists_of_check h
    rw [Bool.and_eq_true, Option.isNone_iff_eq_none, List.isSuffixOf_iff_suffix] at hcheck
    exact ⟨p, hp, hcheck⟩
  exact ⟨hgoes (by decide +kernel), hgoes (by decide +kernel)⟩

end Sample

end TemplateMarkup
