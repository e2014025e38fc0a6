import TemplateMarkup.Code.Hosts
import TemplateMarkup.Proofs.Lossless

/-! # A parse always has a result

The sample code parsers claim the token they are called for, so they are lawful,
and strictly so: they give up no node and report nothing. Hence a parse with any
of them ends, without a fault, with no node left open and with every report in
order and within the source. -/

namespace TemplateMarkup

namespace Cursor

variable {σ : Type} {strict : Prop} {base : List Event} {c₀ c : Cursor σ} {ms₀ ms : List Marker}
  {gain : Nat}

/-! ## Sample code is read along paths -/

namespace Reaches

theorem statement (h : Reaches strict base c₀ ms₀ gain c ms) :
    Reaches strict base c₀ ms₀ gain c.statement ms :=
  (((h.start.bump.bumpWhile _).flushRaw).complete .codeBlock).context _

theorem codeLine (h : Reaches strict base c₀ ms₀ gain c ms) :
    Reaches strict base c₀ ms₀ gain c.codeLine ms :=
  ((h.start.bumpWhile _).eat .newline).flushRaw.complete .codeBlock

end Reaches

/-! ## Sample code claims the next token -/

/-- Up to a token of the kind and with it, at least the next token is accepted. -/
theorem bump_through (hne : c.ahead ≠ []) (kind : Kind) :
    ∃ n, ((c.bumpWhile (·.kind != kind)).eat kind).2 = c.bump.bumpN n := by
  obtain ⟨t, rest, ha⟩ := List.exists_cons_of_ne_nil hne
  by_cases hk : t.kind = kind
  · have hstop : c.bumpWhile (·.kind != kind) = c := bumpWhile_of_head (by simp [ha, hk])
    exact ⟨0, by simp [hstop, eat, at?, current_cons ha, hk, bumpN]⟩
  · have hrun : c.runLength (·.kind != kind) 0 = (rest.takeWhile (·.kind != kind)).length + 1 := by
      simp [runLength, ha, hk]
    rw [bumpWhile, hrun, bumpN, eat]
    split
    · exact ⟨_ + 1, bump_bumpN c.bump _⟩
    · exact ⟨_, rfl⟩

/-- With tokens accepted in a node of its own, from the next one on, a call accepts something. -/
theorem Sound.claims_node (h : Sound strict base ms c) (hne : c.ahead ≠ []) (n : Nat) (m : Marker)
    (kind : Kind) : (((c.start.2.bump.bumpN n).flushRaw).complete m kind).unclaimed < c.unclaimed := by
  have hb := (Reaches.refl h).start.bump
  have hrest := (((Reaches.refl hb.sound).bumpN n).flushRaw).gained
  rw [unclaimed_start_bump, Nat.add_zero] at hrest
  rw [unclaimed_complete]
  exact Nat.lt_of_le_of_lt hrest (h.unclaimed_bump_lt hne)

theorem claims_statement (h : Sound strict base ms c) (hne : c.ahead ≠ []) :
    c.statement.unclaimed < c.unclaimed := by
  have hnode := h.claims_node hne (c.start.2.bump.runLength (·.kind == .text) 0) c.start.1 .codeBlock
  unfold statement
  dsimp only
  rw [bumpWhile]
  generalize ((c.start.2.bump.bumpN _).flushRaw).complete c.start.1 .codeBlock = d at hnode ⊢
  exact hnode

theorem claims_codeLine (h : Sound strict base ms c) (hne : c.ahead ≠ []) :
    c.codeLine.unclaimed < c.unclaimed := by
  obtain ⟨n, hn⟩ := bump_through (c := c.start.2) (by rwa [ahead_start]) .newline
  unfold codeLine
  dsimp only
  rw [hn]
  exact h.claims_node hne n _ .codeBlock

theorem claims_ensureProgress {d : Cursor σ} (h : d.unclaimed < c.unclaimed) (before : Nat) :
    (EmbeddedCode.ensureProgress before d).unclaimed < c.unclaimed :=
  Nat.lt_of_le_of_lt (unclaimed_ensureProgress_le before d) h

/-! ## Sample code is lawful -/

/-- Where every call accepts something, no patience is needed. -/
theorem lawful_of_claims {code : EmbeddedCode σ} (hpatience : ∀ s, code.patience s = 0)
    (hblock : ∀ {base ms c}, Sound strict base ms c →
      Reaches strict base c ms 0 (code.parseBlock c) ms)
    (hcomment : ∀ {base ms c}, Sound strict base ms c →
      Reaches strict base c ms 0 (code.parseComment c) ms)
    (hblocks : ∀ {base ms c}, Sound strict base ms c → c.ahead ≠ [] →
      (code.block c).unclaimed < c.unclaimed)
    (hcomments : ∀ {base ms c}, Sound strict base ms c → c.ahead ≠ [] →
      (code.comment c).unclaimed < c.unclaimed) :
    code.Lawful strict fun _ => True :=
  EmbeddedCode.Patient.lawful
    { respects := ⟨fun _ => id, fun h h' hu => h (h' hu), fun _ => id, fun _ => id⟩
      block := fun h _ => (hblock h).path
      comment := fun h _ => (hcomment h).path
      patience := ⟨fun _ => Nat.le_refl _, fun h h' => Nat.le_trans h' h,
        fun c => by simp [hpatience], fun c => by simp [hpatience]⟩
      block_claims := fun h hne _ => .inr (hblocks h hne)
      comment_claims := fun h hne _ => .inr (hcomments h hne) }

theorem lawful_statement : (EmbeddedCode.statement : EmbeddedCode σ).Lawful strict fun _ => True :=
  lawful_of_claims (fun _ => rfl) (fun h => (Reaches.refl h).statement)
    (fun h => (Reaches.refl h).inlineComment)
    (fun h hne => claims_ensureProgress (claims_statement h hne) _) claims_inlineComment

theorem parseBlock_line (c : Cursor σ) : EmbeddedCode.line.parseBlock c = c.codeLine := by
  unfold EmbeddedCode.line
  dsimp only

theorem lawful_line : (EmbeddedCode.line : EmbeddedCode σ).Lawful strict fun _ => True := by
  refine lawful_of_claims (fun _ => rfl) (fun h => ?_) (fun h => (Reaches.refl h).inlineComment)
    (fun h hne => ?_) claims_inlineComment
  · rw [parseBlock_line]
    exact (Reaches.refl h).codeLine
  · rw [EmbeddedCode.block, parseBlock_line]
    exact claims_ensureProgress (claims_codeLine h hne) _

theorem lawful_nothing : (EmbeddedCode.nothing : EmbeddedCode σ).Lawful strict fun _ => True :=
  lawful_of_claims (fun _ => rfl) Reaches.refl Reaches.refl
    Sound.claims_self Sound.claims_self

/-- The record is the host's affair, the expression is an implicit one. -/
theorem lawful_recorder : EmbeddedCode.recorder.Lawful strict fun _ => True := by
  have hrecord {base : List Event} {ms : List Marker} {c : Cursor (List Bool)}
      (h : Sound strict base ms c) (record : List Bool) :
      Reaches strict base c ms 0 { c with host := record } ms := (Reaches.refl h).step (.host record)
  refine lawful_of_claims (fun _ => rfl) (fun h => (hrecord h _).implicitExpression)
    (fun h => (Reaches.refl h).inlineComment) (fun {base ms c} h hne => ?_) claims_inlineComment
  exact claims_implicitExpression
    (c := { c with host := c.host ++ [c.context.whitespaceSignificant] }) (hrecord h _).sound hne

end Cursor

/-! ## Parses with sample code -/

/-- The sample code parsers, implicit expressions among them. -/
inductive Sample where
  | implicit
  | statement
  | nothing
  | line
  | recorder
  deriving DecidableEq, Repr

namespace Sample

/-- What the code parser keeps from call to call. -/
def Host : Sample → Type
  | recorder => List Bool
  | implicit | statement | nothing | line => Unit

def code : (sample : Sample) → EmbeddedCode sample.Host
  | implicit => .implicit
  | statement => .statement
  | nothing => .nothing
  | line => .line
  | recorder => .recorder

theorem lawful (sample : Sample) : sample.code.Lawful True fun _ => True := by
  cases sample with
  | implicit => exact Cursor.lawful_implicit True _
  | statement => exact Cursor.lawful_statement
  | nothing => exact Cursor.lawful_nothing
  | line => exact Cursor.lawful_line
  | recorder => exact Cursor.lawful_recorder

/-- With sample code a parse of any source has a result: no fault stops it, the loops over the
source end before their bounds do, every node is closed, and every report is in order and within
the source. -/
theorem parse_settles (sample : Sample) (options : Options) (host : sample.Host)
    (nesting? : Option Nesting) (source : String) :
    ∃ p, Parser.parse ⟨some options, sample.code, host⟩ nesting? source = .ok p ∧
      p.tree.Covers source.toList ∧
      .placeholder ∉ (Parser.finish options sample.code host nesting? source).events.toList ∧
      ∀ d ∈ p.diagnostics, d.range.start ≤ d.range.stop ∧
        d.range.stop ≤ Text.width source.toList := by
  obtain ⟨p, hp, hcovers, hsettled⟩ :=
    Parser.finish_covers sample.lawful options host nesting? source trivial
  have hparse : Parser.parse ⟨some options, sample.code, host⟩ nesting? source = .ok p := by
    rw [Parser.parse_eq, hp]
    rfl
  refine ⟨p, hparse, hcovers, (hsettled trivial).filled, fun d hd => ?_⟩
  rw [Cursor.diagnostics_of_result hp] at hd
  exact (hsettled trivial).within d hd

end Sample

end TemplateMarkup
