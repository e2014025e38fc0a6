import TemplateMarkup.Proofs.HostFrame
import TemplateMarkup.Proofs.Progress

/-! # Code parsers that work by cursor operations

A code parser is stepwise if each of its calls is a path of cursor operations.
What is accepted stays accepted along a path, so a call that begins with nothing
held cannot end in front of the place where it began, and where it ends there
the next token is skipped: it moves the cursor forward. A code parser is lawful
if the loop over attributes comes to an end with it as well.

The laws are only asked for while the host's state is `ok`; a host that leaves
that set never comes back to it. -/

namespace TemplateMarkup

open Cursor

variable {σ : Type}

structure EmbeddedCode.Stepwise (code : EmbeddedCode σ) (strict : Prop) (ok : σ → Prop) : Prop where
  respects : code.Respects fun s t => ok t → ok s
  block {base ms c} : Sound strict base ms c → ok (code.parseBlock c).host →
    Path strict c ms (code.parseBlock c) ms
  comment {base ms c} : Sound strict base ms c → ok (code.parseComment c).host →
    Path strict c ms (code.parseComment c) ms

structure EmbeddedCode.Lawful (code : EmbeddedCode σ) (strict : Prop) (ok : σ → Prop) : Prop
    extends code.Stepwise strict ok where
  attributes {base ms c} : Sound strict base ms c → c.held = [] →
    ok (c.attributes code).2.host → Path strict c ms (c.attributes code).2 ms

namespace Cursor

variable {code : EmbeddedCode σ} {ok : σ → Prop} {strict : Prop} {base : List Event}
  {c₀ c d : Cursor σ} {ms₀ ms ns : List Marker} {gain : Nat}

theorem Sound.currentText_pos (h : Sound strict base ms c) (hne : c.ahead ≠ []) :
    0 < c.currentText.length := by
  obtain ⟨t, rest, ha⟩ := List.exists_cons_of_ne_nil hne
  rw [currentText_cons ha]
  exact List.length_pos_iff.mpr (h.nonempty t (by simp [tokens, ha]))

/-! ## What is accepted stays accepted -/

/-- The tokens accepted, in the order of the source. -/
def claimed (c : Cursor σ) : List Token := c.flushed.reverse ++ c.pending.reverse

theorem position_eq (c : Cursor σ) : c.position = c.claimed.length + c.held.length + c.overrun := by
  simp [position, accepted, claimed]

theorem tokens_eq (c : Cursor σ) : c.tokens = c.claimed ++ c.held.reverse ++ c.ahead := rfl

@[simp] theorem claimed_flush (c : Cursor σ) (kind : Kind) : (c.flush kind).claimed = c.claimed := by
  unfold Cursor.flush
  split <;> simp [claimed, Cursor.flushRaw]

theorem Step.claimed_prefix (s : Step strict c ms d ns) : c.claimed <+: d.claimed := by
  have hsame (h : d.claimed = c.claimed) : c.claimed <+: d.claimed := h ▸ List.prefix_refl _
  cases s with
  | bump =>
    unfold Cursor.bump
    split
    · exact List.prefix_refl _
    · next t rest ha => exact ⟨c.held.reverse ++ [t], by simp [claimed]⟩
  | acceptRead =>
    unfold Cursor.acceptRead
    dsimp only
    split <;> exact ⟨c.held.reverse, by simp [claimed, fail]⟩
  | flush kind => exact hsame (claimed_flush c kind)
  | flushRaw => exact hsame (by simp [claimed, Cursor.flushRaw])
  | missing kind => exact hsame (claimed_flush c .literal)
  | start => exact hsame (claimed_flush c .literal)
  | complete kind =>
    refine hsame (Eq.trans ?_ (claimed_flush c .literal))
    unfold Cursor.complete
    dsimp only
    split <;> rfl
  | advance =>
    unfold Cursor.advance
    split <;> exact List.prefix_refl _
  | splitAfter count =>
    unfold Cursor.splitAfter
    split
    · exact List.prefix_refl _
    · split <;> exact List.prefix_refl _
  | report problem range =>
    unfold Cursor.report
    dsimp only
    split <;> exact List.prefix_refl _
  | abandon =>
    unfold Cursor.abandon
    split
    · split <;> exact List.prefix_refl _
    · exact List.prefix_refl _
  | rewind | context | host | reorder => exact List.prefix_refl _

theorem Path.claimed_prefix (p : Path strict c ms d ns) : c.claimed <+: d.claimed := by
  induction p with
  | refl => exact List.prefix_refl _
  | tail _ s ih => exact ih.trans s.claimed_prefix

/-! ## Calls -/

theorem position_bump (hne : c.ahead ≠ []) : c.bump.position = c.position + 1 := by
  obtain ⟨t, rest, ha⟩ := List.exists_cons_of_ne_nil hne
  simp only [position, accepted, bump, ha, List.length_cons, List.length_append, List.length_nil]
  omega

@[simp] theorem position_flush (c : Cursor σ) (kind : Kind) :
    (c.flush kind).position = c.position := by
  simp [position_eq]

theorem ensureProgress_of_ne {before : Nat} (h : c.position ≠ before) :
    EmbeddedCode.ensureProgress before c = c := if_neg fun hsame => h hsame.1

/-- A call that begins with nothing held moves the cursor forward. -/
theorem Path.position_lt (p : Path strict c ms d ns) (hh : c.held = []) (ho : c.overrun = 0)
    (hne : c.ahead ≠ []) : c.position < (EmbeddedCode.ensureProgress c.position d).position := by
  have hplace : c.position = c.claimed.length := by rw [position_eq, hh, ho]; rfl
  have hclaimed := p.claimed_prefix.length_le
  have hle : c.position ≤ d.position := by
    rw [hplace, position_eq d]
    omega
  unfold EmbeddedCode.ensureProgress
  split
  · next hsame =>
    rw [position_flush, position_bump (by simpa [atEnd] using hsame.2)]
    omega
  · next hmoved =>
    refine Nat.lt_of_le_of_ne hle fun heq => hmoved ⟨heq.symm, ?_⟩
    -- at the end of the source every token is in front of the cursor, and one was not before the call
    have htokens := p.length_tokens_le
    have hpos := List.length_pos_iff.mpr hne
    rw [tokens_eq, tokens_eq, hh] at htokens
    simp only [List.length_append, List.length_reverse, List.length_nil] at htokens
    rw [position_eq d] at heq
    have hahead : d.ahead ≠ [] := by
      refine List.length_pos_iff.mp ?_
      omega
    simpa [atEnd] using hahead

/-- The number of characters not read. -/
def unread (c : Cursor σ) : Nat := (Token.textOf c.ahead).length

/-- What the cursor moves over is read, also if it is split on the way. -/
theorem Path.unread_lt (p : Path strict c ms d ns) (hs : Sound strict base ns d)
    (hh : c.held = []) (ho : c.overrun = 0) (hlt : c.position < d.position) :
    d.unread < c.unread := by
  obtain ⟨new, hnew⟩ := p.claimed_prefix
  have htext := congrArg List.length p.text_eq
  have hread : 0 < (new ++ d.held.reverse).length := by
    have hlen := congrArg List.length hnew
    rw [position_eq, position_eq, hh, ho, hs.overrun, List.length_nil] at hlt
    simp only [List.length_append, List.length_reverse] at hlen ⊢
    omega
  obtain ⟨t, rest, hcons⟩ := List.exists_cons_of_ne_nil (List.length_pos_iff.mp hread)
  have hpos : 0 < t.text.length := by
    refine List.length_pos_iff.mpr (hs.nonempty t ?_)
    rw [tokens_eq, ← hnew, List.append_assoc c.claimed, hcons]
    simp
  rw [text, text, tokens_eq, tokens_eq, ← hnew, hh, List.append_assoc c.claimed, hcons] at htext
  simp only [Token.textOf_append, Token.textOf_cons, List.reverse_nil, List.append_nil,
    List.length_append] at htext
  rw [unread, unread]
  omega

namespace Reaches

theorem ensureProgress {before : Nat} (h : Reaches strict base c₀ ms₀ gain c ms) :
    Reaches strict base c₀ ms₀ gain (EmbeddedCode.ensureProgress before c) ms := by
  unfold EmbeddedCode.ensureProgress
  split
  · exact h.bump.flush .metacode
  · exact h

theorem codeBlock (hl : code.Stepwise strict ok) (h : Reaches strict base c₀ ms₀ gain c ms)
    (hok : ok (code.block c).host) : Reaches strict base c₀ ms₀ gain (code.block c) ms := by
  rw [EmbeddedCode.block, EmbeddedCode.Respects.host_ensureProgress] at hok
  exact (h.follow (hl.block h.sound hok)).ensureProgress

theorem codeComment (hl : code.Stepwise strict ok) (h : Reaches strict base c₀ ms₀ gain c ms)
    (hok : ok (code.comment c).host) : Reaches strict base c₀ ms₀ gain (code.comment c) ms := by
  rw [EmbeddedCode.comment, EmbeddedCode.Respects.host_ensureProgress] at hok
  exact (h.follow (hl.comment h.sound hok)).ensureProgress

end Reaches

end Cursor

namespace EmbeddedCode.Stepwise

variable {code : EmbeddedCode σ} {ok : σ → Prop} {strict : Prop} {base : List Event}
  {c : Cursor σ} {ms : List Marker}

theorem block_forward (hl : code.Stepwise strict ok) (h : Sound strict base ms c) (hh : c.held = [])
    (hne : c.ahead ≠ []) (hok : ok (code.block c).host) : c.position < (code.block c).position := by
  rw [EmbeddedCode.block, Respects.host_ensureProgress] at hok
  exact (hl.block h hok).position_lt hh h.overrun hne

theorem comment_forward (hl : code.Stepwise strict ok) (h : Sound strict base ms c)
    (hh : c.held = []) (hne : c.ahead ≠ []) (hok : ok (code.comment c).host) :
    c.position < (code.comment c).position := by
  rw [EmbeddedCode.comment, Respects.host_ensureProgress] at hok
  exact (hl.comment h hok).position_lt hh h.overrun hne

theorem unread_block (hl : code.Stepwise strict ok) (h : Sound strict base ms c) (hh : c.held = [])
    (hne : c.ahead ≠ []) (hok : ok (code.block c).host) : (code.block c).unread < c.unread :=
  have hcall := (Reaches.refl h).codeBlock hl hok
  hcall.path.unread_lt hcall.sound hh h.overrun (hl.block_forward h hh hne hok)

theorem unread_comment (hl : code.Stepwise strict ok) (h : Sound strict base ms c) (hh : c.held = [])
    (hne : c.ahead ≠ []) (hok : ok (code.comment c).host) : (code.comment c).unread < c.unread :=
  have hcall := (Reaches.refl h).codeComment hl hok
  hcall.path.unread_lt hcall.sound hh h.overrun (hl.comment_forward h hh hne hok)

end EmbeddedCode.Stepwise

end TemplateMarkup
