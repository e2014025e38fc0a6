import TemplateMarkup.Proofs.Lawful
import TemplateMarkup.Proofs.Moves
import TemplateMarkup.Proofs.Parallel.Likeness

/-! # Cursors of two parses side by side

`Aligned` says that two parses have come equally far: the tokens in each pile are
alike, the same was reported, and the open nodes resemble each other. Then both
cursors see the same, and each operation, done on both, keeps it so. `Parallel`
says besides that nothing is held, as between any two steps but those of a scan. -/

namespace TemplateMarkup.Cursor

open Comparison

variable {σ : Type} {k : Comparison} {ms : List (Marker × Marker)} {c d c' d' : Cursor σ}

/-! ## What an operation leaves -/

theorem pending_acceptRead (c : Cursor σ) : c.acceptRead.pending = c.held ++ c.pending := by
  unfold Cursor.acceptRead
  split <;> rfl

@[simp] theorem held_report (c : Cursor σ) (problem : Problem) (range : Range) :
    (c.report problem range).held = c.held := by
  unfold Cursor.report
  dsimp only
  split <;> rfl

theorem report_eq (problem : Problem) {range : Range} (h : range.start ≤ range.stop) :
    c.report problem range = { c with diagnostics := c.diagnostics.push ⟨problem, range⟩ } := by
  simp [Cursor.report, Nat.not_lt.mpr h]

/-- A node that a sound client owns can be closed. -/
theorem Sound.complete_eq {base : List Event} {m : Marker} {ms : List Marker} {strict : Prop}
    (h : Sound strict base (m :: ms) c) (kind : Kind) : c.complete m kind =
      { c.flush .literal with
        events := ((c.flush .literal).events.setIfInBounds m.index (.start kind)).push .finish
        lastNode := some kind } :=
  Cursor.complete_eq (by simpa using ((h.flush .literal).waiting m (List.mem_cons_self ..)).2) kind

/-! ## Two parses -/

/-- Two parses that have come equally far. The markers are those of the open nodes but the root. -/
structure Aligned (k : Comparison) (ms : List (Marker × Marker)) (c d : Cursor σ) : Prop where
  left : Sound False [.placeholder] (ms.map Prod.fst) c
  right : Sound False [.placeholder] (ms.map Prod.snd) d
  flushed : k.Alikes c.flushed d.flushed
  pending : k.Alikes c.pending d.pending
  held : k.Alikes c.held d.held
  ahead : k.Alikes c.ahead d.ahead
  lastNode : d.lastNode = c.lastNode
  options : c.context.options = k.options
  caseSensitive : c.context.caseSensitive = k.caseSensitive
  context : d.context = { c.context with options := k.otherOptions }
  reports : List.Forall₂ k.Reports c.diagnostics.toList d.diagnostics.toList
  text : c.text = k.source
  frames : ∃ fs gs, Shows c fs ∧ Shows d gs ∧ k.Frames ms fs gs

namespace Aligned

/-! ### What both see -/

theorem nth (h : Aligned k ms c d) (n : Nat) : d.nth n = c.nth n := h.ahead.kindAt n

theorem current (h : Aligned k ms c d) : d.current = c.current := h.nth 0

theorem at? (h : Aligned k ms c d) (kind : Kind) : d.at? kind = c.at? kind := by
  rw [Cursor.at?, Cursor.at?, h.current]

theorem atEnd (h : Aligned k ms c d) : d.atEnd = c.atEnd := by
  have hahead := h.ahead
  unfold Cursor.atEnd
  generalize c.ahead = ts, d.ahead = us at hahead
  cases hahead <;> rfl

theorem nthText (h : Aligned k ms c d) {n : Nat} (hn : c.nth n ≠ .newline) :
    k.Same (c.nthText n) (d.nthText n) := h.ahead.textAt hn

theorem runLength (h : Aligned k ms c d) {test : Token → Bool} (ht : k.Blind test) (n : Nat) :
    d.runLength test n = c.runLength test n :=
  ((h.ahead.drop n).takeWhile ht).length_eq.symm

theorem position (h : Aligned k ms c d) : d.position = c.position := by
  unfold Cursor.position Cursor.accepted
  rw [h.left.overrun, h.right.overrun, h.flushed.length_eq, h.pending.length_eq, h.held.length_eq]

theorem previous? (h : Aligned k ms c d) : d.previous? = c.previous? := by
  have hread := (h.held.append (h.pending.append h.flushed)).kinds
  rw [← List.append_assoc, ← List.append_assoc] at hread
  have hhead := congrArg List.head? hread
  rwa [List.head?_map, List.head?_map] at hhead

theorem sees (h : Aligned k ms c d) (kinds : List Kind) : d.sees kinds = c.sees kinds := by
  rw [Cursor.sees, Cursor.sees, (h.ahead.take _).kinds]

theorem tokens (h : Aligned k ms c d) : k.Alikes c.tokens d.tokens :=
  ((h.flushed.reverse.append h.pending.reverse).append h.held.reverse).append h.ahead

theorem textBetween (h : Aligned k ms c d) (start stop : Nat) : ∃ ts us, k.Alikes ts us ∧
    c.textBetween start stop = Token.textOf ts ∧ d.textBetween start stop = Token.textOf us :=
  ⟨_, _, (h.tokens.take stop).drop start, rfl, rfl⟩

/-- The offsets of the tokens ahead. -/
theorem nthStart (h : Aligned k ms c d) (n : Nat) : k.Offsets (c.nthStart n) (d.nthStart n) := by
  have hwidth (c : Cursor σ) : c.nthStart n = Token.widthOf
      (c.flushed.reverse ++ c.pending.reverse ++ c.held.reverse ++ c.ahead.take n) := by
    simp only [Cursor.nthStart, Token.widthOf_append, Token.widthOf_reverse]
  refine ⟨_, _, ((h.flushed.reverse.append h.pending.reverse).append h.held.reverse).append
    (h.ahead.take n), ?_, hwidth c, hwidth d⟩
  rw [← h.text, Cursor.text, Cursor.tokens]
  refine ⟨Token.textOf (c.ahead.drop n), ?_⟩
  rw [← Token.textOf_append, List.append_assoc _ (c.ahead.take n), List.take_append_drop]

theorem offset (h : Aligned k ms c d) : k.Offsets c.offset d.offset := h.nthStart 0

theorem ahead_cases (h : Aligned k ms c d) : (c.ahead = [] ∧ d.ahead = []) ∨
    ∃ t u ts us, c.ahead = t :: ts ∧ d.ahead = u :: us ∧ k.Alike t u ∧ k.Alikes ts us := by
  have hahead := h.ahead
  generalize c.ahead = ts, d.ahead = us at hahead
  cases hahead with
  | nil => exact .inl ⟨rfl, rfl⟩
  | cons hk hks => exact .inr ⟨_, _, _, _, rfl, rfl, hk, hks⟩

/-- From the `n`-th token ahead to the next, both go on by a token. -/
theorem nthStart_succ (h : Aligned k ms c d) {n : Nat} (hn : c.nth n ≠ .endOfInput) :
    ∃ t u, k.Alike t u ∧ t.kind = c.nth n ∧ t ∈ c.tokens ∧ u ∈ d.tokens ∧
      c.nthStart (n + 1) = c.nthStart n + t.width ∧ d.nthStart (n + 1) = d.nthStart n + u.width := by
  have hlt : n < c.ahead.length := lt_length_of_nth hn
  have hlt' : n < d.ahead.length := h.ahead.length_eq ▸ hlt
  have hstart {c : Cursor σ} (hlt : n < c.ahead.length) :
      c.nthStart (n + 1) = c.nthStart n + c.ahead[n].width := by
    rw [Cursor.nthStart, Cursor.nthStart, List.take_succ_eq_append_getElem hlt,
      Token.widthOf_append]
    simp only [Token.widthOf]
    omega
  have hmem {c : Cursor σ} (hlt : n < c.ahead.length) : c.ahead[n] ∈ c.tokens := by
    simp [Cursor.tokens]
  refine ⟨c.ahead[n], d.ahead[n], h.ahead.get hlt hlt', ?_, hmem hlt, hmem hlt', hstart hlt,
    hstart hlt'⟩
  simp [Cursor.nth, Token.kindAt, hlt]

/-- Behind a `<` the offsets are one higher, and those of the next token. -/
theorem offset_one (h : Aligned k ms c d) (hk : c.current = .openAngle) :
    c.nthStart 1 = c.offset + 1 ∧ d.nthStart 1 = d.offset + 1 := by
  obtain ⟨fs, gs, hfs, hgs, -⟩ := h.frames
  obtain ⟨t, u, hlike, hkind, ht, hu, hc, hd⟩ := h.nthStart_succ (n := 0) (by
    rw [show c.nth 0 = .openAngle from hk]
    decide)
  have hopen : t.kind = .openAngle := hkind.trans hk
  have htext := (hfs.sane t ht).text_of_openAngle hopen
  have hutext := (hgs.sane u hu).text_of_openAngle (hlike.kind.trans hopen)
  rw [hc, hd, Token.width, Token.width, htext, hutext]
  exact ⟨rfl, rfl⟩

/-- The offset of a name behind a `<`. -/
theorem offset_name (h : Aligned k ms c d) (hk : c.current = .openAngle) :
    k.Offsets (c.offset + 1) (d.offset + 1) := by
  have hone := h.nthStart 1
  rwa [(h.offset_one hk).1, (h.offset_one hk).2] at hone

/-- The offset of a name behind a `</`. -/
theorem offset_endName (h : Aligned k ms c d) (hk : c.current = .openAngle)
    (hs : c.nth 1 = .slash) : k.Offsets (c.offset + 2) (d.offset + 2) := by
  obtain ⟨t, u, hlike, hkind, -, -, hc, hd⟩ := h.nthStart_succ (n := 1) (by rw [hs]; decide)
  have hslash : t.kind = .slash := hkind.trans hs
  have hwidth : t.width = 1 := by
    rw [Token.width, hlike.slash hslash]
    rfl
  have htwo := h.nthStart 2
  rwa [hc, hd, hlike.width_eq (by rw [hslash]; decide), hwidth, (h.offset_one hk).1,
    (h.offset_one hk).2] at htwo

/-! ### What both do -/

theorem move (h : Aligned k ms c d) (hc : Moves c c') (hd : Moves d d')
    (hl : Sound False [.placeholder] (ms.map Prod.fst) c')
    (hr : Sound False [.placeholder] (ms.map Prod.snd) d') (hp : k.Alikes c'.pending d'.pending)
    (hh : k.Alikes c'.held d'.held) (ha : k.Alikes c'.ahead d'.ahead) :
    Aligned k ms c' d' where
  left := hl
  right := hr
  flushed := by rw [hc.flushed, hd.flushed]; exact h.flushed
  pending := hp
  held := hh
  ahead := ha
  lastNode := by rw [hc.lastNode, hd.lastNode, h.lastNode]
  options := by rw [hc.context, h.options]
  caseSensitive := by rw [hc.context, h.caseSensitive]
  context := by rw [hc.context, hd.context, h.context]
  reports := by rw [hc.diagnostics, hd.diagnostics]; exact h.reports
  text := hc.text.trans h.text
  frames := by
    obtain ⟨fs, gs, hfs, hgs, hframes⟩ := h.frames
    exact ⟨fs, gs, hc.shows hfs, hd.shows hgs, hframes⟩

theorem bump (h : Aligned k ms c d) : Aligned k ms c.bump d.bump := by
  rcases h.ahead_cases with ⟨hc, hd⟩ | ⟨t, u, ts, us, hc, hd, hlike, hrest⟩
  · rwa [bump_nil hc, bump_nil hd]
  · refine h.move (.bump c) (.bump d) h.left.bump h.right.bump ?_ ?_ ?_ <;>
      simp only [Cursor.bump, hc, hd]
    · exact .cons hlike (h.held.append h.pending)
    · exact .nil
    · exact hrest

theorem advance (h : Aligned k ms c d) : Aligned k ms c.advance d.advance := by
  rcases h.ahead_cases with ⟨hc, hd⟩ | ⟨t, u, ts, us, hc, hd, hlike, hrest⟩
  · simpa only [Cursor.advance, hc, hd] using h
  · refine h.move (.advance c) (.advance d) h.left.advance h.right.advance ?_ ?_ ?_ <;>
      simp only [Cursor.advance, hc, hd]
    · exact h.pending
    · exact .cons hlike h.held
    · exact hrest

theorem read (h : Aligned k ms c d) : Aligned k ms c.acceptRead d.acceptRead := by
  refine h.move (.acceptRead c) (.acceptRead d) h.left.acceptRead h.right.acceptRead ?_ .nil ?_
  · rw [pending_acceptRead, pending_acceptRead]
    exact h.held.append h.pending
  · rw [ahead_acceptRead, ahead_acceptRead]
    exact h.ahead

theorem unread (h : Aligned k ms c d) : Aligned k ms c.putBack d.putBack := by
  refine h.move (.putBack c) (.putBack d) h.left.putBack h.right.putBack h.pending ?_ ?_
  · rw [held_putBack, held_putBack]
    exact .nil
  · rw [ahead_putBack, ahead_putBack]
    exact h.held.reverse.append h.ahead

/-- Line endings are never split, and the token `/` is too short to be. -/
theorem splitAfter {n : Nat} (hn : c.current ≠ .newline) (h : Aligned k ms c d) :
    Aligned k ms (c.splitAfter n) (d.splitAfter n) := by
  rcases h.ahead_cases with ⟨hc, hd⟩ | ⟨t, u, ts, us, hc, hd, hlike, hrest⟩
  · simpa only [Cursor.splitAfter, hc, hd] using h
  · rw [current_cons hc] at hn
    have hlen : u.text.length = t.text.length := (hlike.text hn).1.length_eq
    by_cases hcount : 0 < n ∧ n < t.text.length
    · have hslash : t.kind ≠ .slash := by
        intro hs
        rw [hlike.slash hs, List.length_singleton] at hcount
        omega
      refine h.move (.splitAfter c n) (.splitAfter d n) (h.left.splitAfter n)
        (h.right.splitAfter n) ?_ ?_ ?_ <;>
        simp only [Cursor.splitAfter, hc, hd, hlen, if_pos hcount]
      · exact h.pending
      · exact h.held
      · exact .cons (hlike.take hn hslash n) (.cons (hlike.drop hn hslash n) hrest)
    · simpa only [Cursor.splitAfter, hc, hd, hlen, if_neg hcount] using h

theorem emit {new new' : List Tree} (h : Aligned k ms c d) (hc : Emits new c c')
    (hd : Emits new' d d') (hl : Sound False [.placeholder] (ms.map Prod.fst) c')
    (hr : Sound False [.placeholder] (ms.map Prod.snd) d') (hlast : d'.lastNode = c'.lastNode)
    (hnew : k.Resembles new new') : Aligned k ms c' d' where
  left := hl
  right := hr
  flushed := by
    rw [hc.flushed, hd.flushed]
    exact h.pending.append h.flushed
  pending := by
    rw [hc.pending, hd.pending]
    exact .nil
  held := by rw [hc.held, hd.held]; exact h.held
  ahead := by rw [hc.ahead, hd.ahead]; exact h.ahead
  lastNode := hlast
  options := by rw [hc.context, h.options]
  caseSensitive := by rw [hc.context, h.caseSensitive]
  context := by rw [hc.context, hd.context, h.context]
  reports := by rw [hc.diagnostics, hd.diagnostics]; exact h.reports
  text := (text_congr hc.tokens_eq).trans h.text
  frames := by
    obtain ⟨fs, gs, hfs, hgs, hframes⟩ := h.frames
    obtain ⟨f, fs, g, gs, rfl, rfl⟩ := hframes.exists_cons
    exact ⟨_, _, hc.shows hfs, hd.shows hgs, hframes.add hnew⟩

theorem pending_eq_nil_iff (h : Aligned k ms c d) : d.pending = [] ↔ c.pending = [] := by
  rw [← List.length_eq_zero_iff, ← List.length_eq_zero_iff, h.pending.length_eq]

theorem lastNode_flush_eq (h : Aligned k ms c d) (kind : Kind) :
    (d.flush kind).lastNode = (c.flush kind).lastNode := by
  rw [lastNode_flush, lastNode_flush, h.lastNode]
  simp only [h.pending_eq_nil_iff]

theorem flush (kind : Kind) (h : Aligned k ms c d) :
    Aligned k ms (c.flush kind) (d.flush kind) :=
  h.emit (.flush c kind) (.flush d kind) (h.left.flush kind) (h.right.flush kind)
    (h.lastNode_flush_eq kind) (.flushTrees kind h.pending)

theorem flushRaw (h : Aligned k ms c d) : Aligned k ms c.flushRaw d.flushRaw :=
  h.emit (.flushRaw c) (.flushRaw d) h.left.flushRaw h.right.flushRaw h.lastNode
    (.leaves h.pending.reverse)

theorem missing {kind : Kind} (hk : kind ≠ .newline) (h : Aligned k ms c d) :
    Aligned k ms (c.missing kind) (d.missing kind) :=
  h.emit (.missing c kind) (.missing d kind) (h.left.missing kind) (h.right.missing kind)
    (h.lastNode_flush_eq .literal) ((Resembles.flushTrees .literal h.pending).append (.missing hk))

theorem start (h : Aligned k ms c d) :
    Aligned k ((c.start.1, d.start.1) :: ms) c.start.2 d.start.2 := by
  have hflush := h.flush .literal
  refine { hflush with left := h.left.start, right := h.right.start, frames := ?_ }
  obtain ⟨fs, gs, hfs, hgs, hframes⟩ := h.frames
  obtain ⟨f, fs, g, gs, rfl, rfl⟩ := hframes.exists_cons
  obtain ⟨hc, hm⟩ := hfs.start
  obtain ⟨hd, hn⟩ := hgs.start
  exact ⟨_, _, hc, hd, .cons (hframes.add (.flushTrees .literal h.pending)) hm hn .nil⟩

theorem complete {m n : Marker} (kind : Kind) (h : Aligned k ((m, n) :: ms) c d) :
    Aligned k ms (c.complete m kind) (d.complete n kind) := by
  have hflush := h.flush .literal
  have hl := h.left.complete kind
  have hr := h.right.complete kind
  have hframes : ∃ fs gs, Shows (c.complete m kind) fs ∧ Shows (d.complete n kind) gs ∧
      k.Frames ms fs gs := by
    obtain ⟨fs, gs, hfs, hgs, hframes⟩ := h.frames
    cases hframes with
    | cons hout hm hn hfg =>
      obtain ⟨f, fs, g, gs, rfl, rfl⟩ := hout.exists_cons
      exact ⟨_, _, hfs.complete hm kind, hgs.complete hn kind,
        hout.add (.node kind (hfg.append (.flushTrees .literal h.pending)))⟩
  rw [h.left.complete_eq kind] at hl hframes ⊢
  rw [h.right.complete_eq kind] at hr hframes ⊢
  exact { hflush with left := hl, right := hr, lastNode := rfl, frames := hframes }

theorem report {p q : Problem} {r s : Range}
    (hp : p.mapName (·.map k.fold) = q.mapName (·.map k.fold)) (hr : k.Ranges r s)
    (h : Aligned k ms c d) : Aligned k ms (c.report p r) (d.report q s) := by
  obtain ⟨width, hc, hd⟩ := hr.2
  have hcr : r.start ≤ r.stop := by omega
  have hdr : s.start ≤ s.stop := by omega
  have hleft := h.left.report p hcr False.elim
  have hright := h.right.report q hdr False.elim
  rw [report_eq p hcr] at hleft ⊢
  rw [report_eq q hdr] at hright ⊢
  refine { h with left := hleft, right := hright, reports := ?_, frames := ?_ }
  · simp only [Array.toList_push]
    exact List.rel_append h.reports (.cons ⟨hp, hr⟩ .nil)
  · obtain ⟨fs, gs, hfs, hgs, hframes⟩ := h.frames
    exact ⟨fs, gs, hfs.same rfl rfl rfl, hgs.same rfl rfl rfl, hframes⟩

/-- What the parsers say to each other about a stretch of the source is the same. -/
theorem setContext {x y : Context} (h : Aligned k ms c d) (ho : x.options = k.options)
    (hcase : x.caseSensitive = k.caseSensitive) (hy : y = { x with options := k.otherOptions }) :
    Aligned k ms { c with context := x } { d with context := y } where
  left := h.left.of_events_eq rfl rfl h.left.nonempty rfl rfl nofun
  right := h.right.of_events_eq rfl rfl h.right.nonempty rfl rfl nofun
  flushed := h.flushed
  pending := h.pending
  held := h.held
  ahead := h.ahead
  lastNode := h.lastNode
  options := ho
  caseSensitive := hcase
  context := hy
  reports := h.reports
  text := h.text
  frames := by
    obtain ⟨fs, gs, hfs, hgs, hframes⟩ := h.frames
    exact ⟨fs, gs, hfs.same rfl rfl rfl, hgs.same rfl rfl rfl, hframes⟩

end Aligned

/-- Two parses that have come equally far and hold nothing. -/
structure Parallel (k : Comparison) (ms : List (Marker × Marker)) (c d : Cursor σ) : Prop
    extends Aligned k ms c d where
  none_held : c.held = []

namespace Aligned

theorem acceptRead (h : Aligned k ms c d) : Parallel k ms c.acceptRead d.acceptRead :=
  ⟨h.read, held_acceptRead c⟩

theorem putBack (h : Aligned k ms c d) : Parallel k ms c.putBack d.putBack :=
  ⟨h.unread, held_putBack c⟩

end Aligned

namespace Parallel

theorem bump (h : Parallel k ms c d) : Parallel k ms c.bump d.bump :=
  ⟨h.toAligned.bump, held_bump_of_held h.none_held⟩

theorem bumpN (n : Nat) (h : Parallel k ms c d) : Parallel k ms (c.bumpN n) (d.bumpN n) := by
  induction n generalizing c d with
  | zero => exact h
  | succ n ih => exact ih h.bump

theorem bumpWhile {test : Token → Bool} (ht : k.Blind test) (h : Parallel k ms c d) :
    Parallel k ms (c.bumpWhile test) (d.bumpWhile test) := by
  rw [Cursor.bumpWhile, Cursor.bumpWhile, h.runLength ht]
  exact h.bumpN _

theorem eat (kind : Kind) (h : Parallel k ms c d) :
    (d.eat kind).1 = (c.eat kind).1 ∧ Parallel k ms (c.eat kind).2 (d.eat kind).2 := by
  unfold Cursor.eat
  rw [h.at?]
  split
  · exact ⟨rfl, h.bump⟩
  · exact ⟨rfl, h⟩

theorem splitAfter {n : Nat} (hn : c.current ≠ .newline) (h : Parallel k ms c d) :
    Parallel k ms (c.splitAfter n) (d.splitAfter n) :=
  ⟨h.toAligned.splitAfter hn, (held_splitAfter c n).trans h.none_held⟩

theorem flush (kind : Kind) (h : Parallel k ms c d) :
    Parallel k ms (c.flush kind) (d.flush kind) :=
  ⟨h.toAligned.flush kind, (held_flush c kind).trans h.none_held⟩

theorem flushRaw (h : Parallel k ms c d) : Parallel k ms c.flushRaw d.flushRaw :=
  ⟨h.toAligned.flushRaw, h.none_held⟩

theorem missing {kind : Kind} (hk : kind ≠ .newline) (h : Parallel k ms c d) :
    Parallel k ms (c.missing kind) (d.missing kind) :=
  ⟨h.toAligned.missing hk, (held_flush c _).trans h.none_held⟩

theorem start (h : Parallel k ms c d) :
    Parallel k ((c.start.1, d.start.1) :: ms) c.start.2 d.start.2 :=
  ⟨h.toAligned.start, (held_start c).trans h.none_held⟩

theorem complete {m n : Marker} (kind : Kind) (h : Parallel k ((m, n) :: ms) c d) :
    Parallel k ms (c.complete m kind) (d.complete n kind) :=
  ⟨h.toAligned.complete kind, (held_complete c m kind).trans h.none_held⟩

theorem report {p q : Problem} {r s : Range}
    (hp : p.mapName (·.map k.fold) = q.mapName (·.map k.fold)) (hr : k.Ranges r s)
    (h : Parallel k ms c d) : Parallel k ms (c.report p r) (d.report q s) :=
  ⟨h.toAligned.report hp hr, (held_report c p r).trans h.none_held⟩

theorem setContext {x y : Context} (h : Parallel k ms c d) (ho : x.options = k.options)
    (hcase : x.caseSensitive = k.caseSensitive) (hy : y = { x with options := k.otherOptions }) :
    Parallel k ms { c with context := x } { d with context := y } :=
  ⟨h.toAligned.setContext ho hcase hy, h.none_held⟩

end Parallel

end TemplateMarkup.Cursor
