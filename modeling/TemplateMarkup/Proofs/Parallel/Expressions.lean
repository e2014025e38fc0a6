import TemplateMarkup.Proofs.Implicit
import TemplateMarkup.Proofs.Parallel.Scans

/-! # Implicit expressions of two parses side by side

Names and brackets do not depend on the case of a letter or on how a line ending
is written, so an implicit expression keeps two parses side by side. Blanks in
front of its `@` become part of the expression if the call begins with them, and
the expression itself is the same either way. -/

namespace TemplateMarkup

/-! ## Brackets and names -/

namespace Brackets

variable {b : Brackets} {x y : List Char}

/-- Which of the two brackets a character is, if it is one. -/
def side (b : Brackets) (c : Char) : Bool × Bool := (c == b.opening, c == b.closing)

/-- Brackets that are neither letters nor line endings. -/
structure Marks (b : Brackets) : Prop where
  toLower (c : Char) : b.side c.toLower = b.side c
  lineEnd {c : Char} : c = '\r' ∨ c = '\n' → b.side c = (false, false)

theorem marks_round : round.Marks where
  toLower := Text.apply_toLower _ (by decide)
  lineEnd h := by rcases h with rfl | rfl <;> decide

theorem marks_square : square.Marks where
  toLower := Text.apply_toLower _ (by decide)
  lineEnd h := by rcases h with rfl | rfl <;> decide

theorem marks_curly : curly.Marks where
  toLower := Text.apply_toLower _ (by decide)
  lineEnd h := by rcases h with rfl | rfl <;> decide

theorem findClosing_congr (depth : Nat) (h : y.map b.side = x.map b.side) :
    b.findClosing depth y = b.findClosing depth x := by
  induction x generalizing y depth with
  | nil =>
    obtain rfl := List.map_eq_nil_iff.mp h
    rfl
  | cons c x ih =>
    cases y with
    | nil => cases h
    | cons d y =>
      obtain ⟨hside, hrest⟩ := List.cons.inj h
      obtain ⟨hopening, hclosing⟩ := Prod.mk.inj hside
      have hopening : d = b.opening ↔ c = b.opening := by
        rw [← beq_iff_eq, hopening, beq_iff_eq]
      have hclosing : d = b.closing ↔ c = b.closing := by
        rw [← beq_iff_eq, hclosing, beq_iff_eq]
      unfold findClosing
      simp only [hopening, hclosing, ih _ hrest]

theorem findClosing_plain (depth : Nat) (h : ∀ c ∈ x, b.side c = (false, false)) :
    b.findClosing depth x = .unclosed depth := by
  induction x with
  | nil => rfl
  | cons c x ih =>
    obtain ⟨hc, hx⟩ := List.forall_mem_cons.mp h
    obtain ⟨hopening, hclosing⟩ := Prod.mk.inj hc
    unfold findClosing
    simp only [beq_eq_false_iff_ne.mp hopening, beq_eq_false_iff_ne.mp hclosing, if_false, ih hx]

end Brackets

namespace Likeness

variable {l : Likeness} {t u : Token} {a b : List Char}

theorem Alike.findClosing {bs : Brackets} (hb : bs.Marks) (depth : Nat) (h : l.Alike t u) :
    bs.findClosing depth u.text = bs.findClosing depth t.text := by
  by_cases hk : t.kind = .newline
  · have hplain {c : Char} (hc : c ∈ t.text ++ u.text) : bs.side c = (false, false) :=
      hb.lineEnd (l.newline_mem (h.newline hk) hc)
    rw [Brackets.findClosing_plain depth fun c hc => hplain (List.mem_append_right _ hc),
      Brackets.findClosing_plain depth fun c hc => hplain (List.mem_append_left _ hc)]
  · exact Brackets.findClosing_congr depth ((h.text hk).1.map_eq hb.toLower)

theorem startsName_toLower (c : Char) : startsName c.toLower = startsName c :=
  Text.apply_toLower _ (by decide +kernel) c

theorem continuesName_toLower (c : Char) : continuesName c.toLower = continuesName c :=
  Text.apply_toLower _ (by decide +kernel) c

theorem Same.nameLength (h : l.Same a b) : nameLength b = nameLength a := by
  -- the length is that of a run of two answers about each character
  have hanswers (cs : List Char) : TemplateMarkup.nameLength cs =
      (((cs.map fun c => (continuesName c, c == '.')).takeWhile Prod.fst).reverse.dropWhile
        Prod.snd).length := by
    rw [List.takeWhile_map, ← List.map_reverse, List.dropWhile_map, List.length_map]
    rfl
  have hmap := h.map_eq (p := fun c => (continuesName c, c == '.')) fun c => by
    rw [continuesName_toLower, Text.apply_toLower (· == '.') (by decide)]
  rw [hanswers a, hanswers b, hmap]

end Likeness

namespace Cursor

open Comparison

variable {σ : Type} {k : Comparison} {ms : List (Marker × Marker)} {c d : Cursor σ}

/-! ## Expressions and comments -/

namespace Parallel

theorem balancedFrom {b : Brackets} (hb : b.Marks) {ts us : List Token} {depth : Nat}
    (hc : c.ahead = ts) (hd : d.ahead = us) (h : Parallel k ms c d) :
    Parallel k ms (Cursor.balancedFrom b depth ts c) (Cursor.balancedFrom b depth us d) := by
  induction ts generalizing us depth c d with
  | nil =>
    have hahead := h.ahead
    rw [hc, hd] at hahead
    cases hahead
    exact h
  | cons t ts ih =>
    have hahead := h.ahead
    rw [hc, hd] at hahead
    cases hahead with
    | @cons _ u _ us hlike hrest =>
      have hfind := hlike.findClosing hb depth
      unfold Cursor.balancedFrom
      rw [hfind]
      split
      · next hafter =>
        -- a line ending holds no bracket, so it is not split
        have hk : c.current ≠ .newline := by
          rw [current_cons hc]
          intro hk
          have hplain {x : Char} (hx : x ∈ t.text) : b.side x = (false, false) :=
            hb.lineEnd (k.newline_mem (hlike.newline hk) (List.mem_append_left _ hx))
          rw [Brackets.findClosing_plain depth fun x hx => hplain hx] at hafter
          cases hafter
        exact (h.splitAfter hk).bump
      · exact ih (by rw [ahead_bump, hc]; rfl) (by rw [ahead_bump, hd]; rfl) h.bump

theorem balanced {b : Brackets} (hb : b.Marks) (h : Parallel k ms c d) :
    Parallel k ms (c.balanced b) (d.balanced b) := h.balancedFrom hb rfl rfl

theorem atText (ch : Char) (hch : ∀ n : Fin 26,
      ((Char.ofNat (65 + n)).toLower == ch) = (Char.ofNat (65 + n) == ch))
    (h : Parallel k ms c d) : d.atText ch = c.atText ch := by
  unfold Cursor.atText
  rw [h.at?]
  by_cases hk : c.at? .text = true
  · have htext : c.current ≠ .newline := by
      rw [beq_iff_eq.mp hk]
      decide
    have hlower := Text.apply_toLower (· == ch) hch
    have hhead := (h.nthText htext).head?_map (p := (· == ch)) hlower
    have hsome (x : Option Char) : (x == some ch) = (x.map (· == ch)).getD false := by
      cases x <;> rfl
    rw [hsome, hsome, show d.currentText.head?.map (· == ch) = _ from hhead]
    rfl
  · simp [hk]

theorem groups {bound bound' : Nat} (hc : (c.groups bound).fault = none)
    (hd : (d.groups bound').fault = none) (h : Parallel k ms c d) :
    Parallel k ms (c.groups bound) (d.groups bound') := by
  induction bound generalizing bound' c d with
  | zero => simp [Cursor.groups, fail] at hc
  | succ bound ih =>
    cases bound' with
    | zero => simp [Cursor.groups, fail] at hd
    | succ bound' =>
      revert hc hd
      unfold Cursor.groups
      rw [h.atText '(' (by decide), h.at?]
      split
      · exact fun hc hd => ih hc hd (h.balanced Brackets.marks_round)
      · split
        · exact fun hc hd => ih hc hd (h.balanced Brackets.marks_square)
        · exact fun _ _ => h

theorem expressionBody (h : Parallel k ms c d) :
    Parallel k ms c.expressionBody d.expressionBody := by
  unfold Cursor.expressionBody
  rw [h.atText '(' (by decide), h.atText '\x7b' (by decide),
    h.at?]
  by_cases hk : c.at? .text = true
  · have htext : c.current ≠ .newline := by
      rw [beq_iff_eq.mp hk]
      decide
    have hsame : k.Same c.currentText d.currentText := h.nthText htext
    have hstarts : d.currentText.head?.any startsName = c.currentText.head?.any startsName := by
      have hsome (x : Option Char) : x.any startsName = (x.map startsName).getD false := by
        cases x <;> rfl
      rw [hsome, hsome, hsame.head?_map Likeness.startsName_toLower]
    rw [hstarts, hsame.nameLength]
    split
    · exact h.balanced Brackets.marks_round
    · split
      · exact h.balanced Brackets.marks_curly
      · split
        · have hname := (h.splitAfter (n := nameLength c.currentText) htext).bump
          exact hname.groups
            ((Reaches.refl hname.left).groups (Nat.lt_succ_self _)).sound.fault
            ((Reaches.refl hname.right).groups (Nat.lt_succ_self _)).sound.fault
        · exact h
  · simp only [Cursor.atText, hk, Bool.false_and, Bool.false_eq_true, if_false]
    exact h

theorem implicitExpression (h : Parallel k ms c d) :
    Parallel k ms c.implicitExpression d.implicitExpression := by
  unfold Cursor.implicitExpression
  dsimp only
  rw [h.runLength (k.blind_kind (· == .whitespace)), h.nth]
  split
  · exact (h.start.bumpN _).expressionBody.flushRaw.complete .codeBlock
  · exact h

theorem inlineComment (h : Parallel k ms c d) : Parallel k ms c.inlineComment d.inlineComment := by
  unfold Cursor.inlineComment
  rw [h.at?]
  split
  · have hbody := h.start.bump.bumpWhile (k.blind_kind (· != .commentClose))
    exact (hbody.eat .commentClose).2.flushRaw.complete .inlineComment
  · exact h

end Parallel

/-! ## Blanks in front of an expression

What an expression accepts depends on the tokens ahead only. So the blanks in
front of it may as well have become a leaf of its node before. -/

section Blanks

variable {c₀ e₀ e : Cursor σ}

/-- Two cursors have accepted the same tokens since they were at `c₀` and `e₀`. -/
def Together (c₀ e₀ c e : Cursor σ) : Prop :=
  ∃ ts rest fault, c = { c₀ with pending := ts ++ c₀.pending, ahead := rest, fault } ∧
    e = { e₀ with pending := ts ++ e₀.pending, ahead := rest, fault }

namespace Together

theorem refl (ha : e₀.ahead = c₀.ahead) (hf : e₀.fault = c₀.fault) : Together c₀ e₀ c₀ e₀ :=
  ⟨[], c₀.ahead, c₀.fault, rfl, by rw [← ha, ← hf]; rfl⟩

theorem ahead (h : Together c₀ e₀ c e) : e.ahead = c.ahead := by
  obtain ⟨ts, rest, fault, rfl, rfl⟩ := h
  rfl

theorem bump (hc : c₀.held = []) (he : e₀.held = []) (h : Together c₀ e₀ c e) :
    Together c₀ e₀ c.bump e.bump := by
  obtain ⟨ts, rest, fault, rfl, rfl⟩ := h
  cases rest with
  | nil => exact ⟨ts, [], fault, rfl, rfl⟩
  | cons t rest =>
    refine ⟨t :: ts, rest, fault, ?_, ?_⟩
    · simp [Cursor.bump, hc]
    · simp [Cursor.bump, he]

theorem splitAfter (count : Nat) (h : Together c₀ e₀ c e) :
    Together c₀ e₀ (c.splitAfter count) (e.splitAfter count) := by
  obtain ⟨ts, rest, fault, rfl, rfl⟩ := h
  cases rest with
  | nil => exact ⟨ts, [], fault, rfl, rfl⟩
  | cons t rest =>
    unfold Cursor.splitAfter
    dsimp only
    split
    · exact ⟨ts, _, fault, rfl, rfl⟩
    · exact ⟨ts, _, fault, rfl, rfl⟩

theorem balancedFrom (hc : c₀.held = []) (he : e₀.held = []) (b : Brackets) {ts : List Token}
    {depth : Nat} (h : Together c₀ e₀ c e) :
    Together c₀ e₀ (Cursor.balancedFrom b depth ts c) (Cursor.balancedFrom b depth ts e) := by
  induction ts generalizing depth c e with
  | nil => exact h
  | cons t ts ih =>
    unfold Cursor.balancedFrom
    split
    · exact (h.splitAfter _).bump hc he
    · exact ih (h.bump hc he)

theorem balanced (hc : c₀.held = []) (he : e₀.held = []) (b : Brackets)
    (h : Together c₀ e₀ c e) : Together c₀ e₀ (c.balanced b) (e.balanced b) := by
  unfold Cursor.balanced
  rw [h.ahead]
  exact h.balancedFrom hc he b

theorem at_eq (h : Together c₀ e₀ c e) (kind : Kind) (ch : Char) :
    e.at? kind = c.at? kind ∧ e.currentText = c.currentText ∧ e.atText ch = c.atText ch := by
  obtain ⟨ts, rest, fault, rfl, rfl⟩ := h
  exact ⟨rfl, rfl, rfl⟩

theorem groups (hc : c₀.held = []) (he : e₀.held = []) {bound : Nat} (h : Together c₀ e₀ c e) :
    Together c₀ e₀ (c.groups bound) (e.groups bound) := by
  induction bound generalizing c e with
  | zero =>
    obtain ⟨ts, rest, fault, rfl, rfl⟩ := h
    exact ⟨ts, rest, _, rfl, rfl⟩
  | succ bound ih =>
    unfold Cursor.groups
    rw [(h.at_eq .text '(').2.2, (h.at_eq .openBracket '(').1]
    split
    · exact ih (h.balanced hc he _)
    · split
      · exact ih (h.balanced hc he _)
      · exact h

theorem unclaimed (hc : c₀.held = []) (he : e₀.held = []) (h : Together c₀ e₀ c e) :
    e.unclaimed = c.unclaimed := by
  obtain ⟨ts, rest, fault, rfl, rfl⟩ := h
  simp [Cursor.unclaimed, hc, he]

theorem expressionBody (hc : c₀.held = []) (he : e₀.held = []) (h : Together c₀ e₀ c e) :
    Together c₀ e₀ c.expressionBody e.expressionBody := by
  unfold Cursor.expressionBody
  rw [(h.at_eq .text '(').2.2, (h.at_eq .text '\x7b').2.2, (h.at_eq .text '(').1,
    (h.at_eq .text '(').2.1]
  split
  · exact h.balanced hc he _
  · split
    · exact h.balanced hc he _
    · split
      · have hname := (h.splitAfter (nameLength c.currentText)).bump hc he
        dsimp only
        rw [hname.unclaimed hc he]
        exact hname.groups hc he
      · exact h

end Together

/-- Tokens may become leaves before others that are accepted. -/
theorem flushRaw_flushRaw (c : Cursor σ) (ts : List Token) :
    { c.flushRaw with pending := ts ++ c.flushRaw.pending }.flushRaw =
      { c with pending := ts ++ c.pending }.flushRaw := by
  simp only [Cursor.flushRaw, List.append_nil, List.append_assoc, List.reverse_append,
    List.map_append, mk.injEq, true_and, and_true]
  rw [← Array.toList_inj]
  simp

/-- The node finished last does not matter to a node that is finished now. -/
theorem complete_lastNode {m : Marker} (hp : c.pending = []) (kind : Kind) (last : Option Kind)
    (hm : c.events[m.index]? = some .placeholder) :
    { c with lastNode := last }.complete m kind = c.complete m kind := by
  unfold Cursor.complete
  rw [flush_of_pending hp, flush_of_pending (c := { c with lastNode := last }) hp]
  dsimp only
  rw [if_pos hm, if_pos hm]

end Blanks

variable {t u : Token} {rest : List Token}

/-- An expression takes a blank in front of it, if there is one, and its `@`. -/
theorem implicitExpression_blank (ht : t.kind = .whitespace) (ha : c.ahead = t :: rest)
    (hk : Token.kindAt rest 0 = .transition) : c.implicitExpression =
      ((c.start.2.bumpN 2).expressionBody.flushRaw).complete c.start.1 .codeBlock := by
  cases rest with
  | nil => cases hk
  | cons u rest =>
    have hu : u.kind = .transition := hk
    have hone : c.runLength (·.kind == .whitespace) 0 = 1 := by simp [runLength, ha, ht, hu]
    unfold Cursor.implicitExpression
    rw [hone, if_pos (by rw [nth, ha]; exact hk)]

theorem implicitExpression_at (hk : c.current = .transition) : c.implicitExpression =
    (c.start.2.bump.expressionBody.flushRaw).complete c.start.1 .codeBlock := by
  obtain ⟨u, rest, ha⟩ := List.exists_cons_of_ne_nil
    (ahead_ne_nil_of_at (beq_iff_eq.mpr hk) (by decide))
  rw [current_cons ha] at hk
  have hnone : c.runLength (·.kind == .whitespace) 0 = 0 := by simp [runLength, ha, hk]
  unfold Cursor.implicitExpression
  rw [hnone, if_pos (by simpa [nth, ha, Token.kindAt] using hk)]
  rfl

/-- An expression moves the cursor, so that nothing is skipped behind it. -/
theorem Sound.block_implicit {base : List Event} {ns : List Marker} (blanks : Nat)
    (h : Sound False base ns c) (hh : c.held = []) (hne : c.ahead ≠ [])
    (hc : c.implicitExpression =
      ((c.start.2.bumpN (blanks + 1)).expressionBody.flushRaw).complete c.start.1 .codeBlock) :
    EmbeddedCode.implicit.block c = c.implicitExpression := by
  have hbump := (Reaches.refl h).start.bump
  have hrest := (((Reaches.refl hbump.sound).bumpN blanks).expressionBody.flushRaw.complete
    .codeBlock).path.claimed_prefix.length_le
  have hmoved := position_bump (c := c.start.2) (by simpa using hne)
  rw [position_eq c.start.2.bump, held_bump_of_held ((held_start c).trans hh), hbump.sound.overrun,
    show c.start.2.position = c.position from position_flush c _] at hmoved
  refine ensureProgress_of_ne (Nat.ne_of_gt ?_)
  calc c.position < c.start.2.bump.claimed.length := by
        rw [List.length_nil] at hmoved
        omega
    _ ≤ _ := hrest
    _ ≤ c.implicitExpression.position := by
        rw [hc, position_eq]
        exact Nat.le_trans (Nat.le_add_right _ _) (Nat.le_add_right _ _)

/-- From one cursor to the other everything accepted is flushed and nothing is read. -/
structure Flushes (c d : Cursor σ) : Prop where
  pending : d.pending = []
  held : d.held = c.held
  ahead : d.ahead = c.ahead
  flushed : d.flushed = c.pending ++ c.flushed
  diagnostics : d.diagnostics = c.diagnostics
  context : d.context = c.context
  text : d.text = c.text

theorem flushes_start (c : Cursor σ) : Flushes c (c.flush .literal).start.2 where
  pending := pending_flush _ _
  held := by rw [held_start, held_flush]
  ahead := by rw [ahead_start, ahead_flush]
  flushed := by simp [Cursor.start]
  diagnostics := by simp [Cursor.start]
  context := by simp [Cursor.start]
  text := by rw [text_congr (tokens_start _), text_congr (tokens_flush _ _)]

theorem pending_bump (hp : c.pending = []) (hh : c.held = []) (ha : c.ahead = t :: rest) :
    c.bump.pending = [t] := by simp [Cursor.bump, ha, hh, hp]

theorem bump_flushRaw_eq (hp : c.pending = []) (hh : c.held = []) (ha : c.ahead = t :: rest) :
    c.bump.flushRaw = { c with
      flushed := t :: c.flushed
      ahead := rest
      events := c.events.push (.token t.kind 1) } := by
  simp [Cursor.flushRaw, Cursor.bump, ha, hh, hp]

namespace Aligned

theorem exists_held (h : Aligned k ms c d) (hheld : c.held = [t]) :
    ∃ u, k.Alike t u ∧ d.held = [u] := by
  have hh := h.held
  rw [hheld] at hh
  obtain ⟨u, us, hlike, hnil, heq⟩ := List.forall₂_cons_left_iff.mp hh
  rw [List.forall₂_nil_left_iff.mp hnil] at heq
  exact ⟨u, hlike, heq⟩

/-- What is pending is literal text in both runs, with the blank at its end in the second. -/
theorem literal_blank (he : k.editing = true) (h : Aligned k ms c d)
    (hblank : u.kind.isTrivia = true) :
    k.Resembles (flushTrees .literal c.pending) (flushTrees .literal (u :: d.pending)) := by
  refine .flushTrees_blank he (.inl rfl) ?_
  have hleaves := (Comparison.Resembles.leaves h.pending.reverse).append (.blank' he hblank)
  simpa using hleaves

/-- On the left the blank is the first leaf of the node, on the right it stands in front of it. -/
theorem frames_blank_leaf (he : k.editing = true) (h : Aligned k ms c d) (hheld : c.held = [t])
    (hheld' : d.held = [u]) (ht : t.kind = .whitespace) (hblank : u.kind.isTrivia = true) :
    ∃ fs gs, Shows (c.putBack.flush .literal).start.2.bump.flushRaw fs ∧
      Shows (d.acceptRead.flush .literal).start.2 gs ∧
      k.Frames (((c.putBack.flush .literal).start.1, (d.acceptRead.flush .literal).start.1) :: ms)
        fs gs := by
  obtain ⟨fs, gs, hfs, hgs, hframes⟩ := h.frames
  obtain ⟨f, fs, g, gs, rfl, rfl⟩ := hframes.exists_cons
  obtain ⟨hc, hm⟩ := (((Moves.putBack c).shows hfs).flush .literal).start
  obtain ⟨hd, hn⟩ := (((Moves.acceptRead d).shows hgs).flush .literal).start
  have hleaf := (Emits.flushRaw _).shows ((Moves.bump _).shows hc)
  have hx := flushes_start c.putBack
  have hahead : (c.putBack.flush .literal).start.2.ahead = t :: c.ahead := by
    rw [hx.ahead, ahead_putBack, hheld]
    rfl
  have hliteral := h.literal_blank he hblank
  rw [pending_bump hx.pending (hx.held.trans (held_putBack c)) hahead] at hleaf
  refine ⟨_, _, hleaf, hd, .cons ?_ hm hn ?_⟩
  · rw [pending_flush, pending_flush, flushTrees_nil, List.append_nil, List.append_nil,
      pending_acceptRead, hheld']
    exact hframes.add hliteral
  · exact .blank he (by rw [ht]; rfl)

/-- A blank that begins a line is the first leaf of an expression that takes it, and it is literal
text in front of one that does not. -/
theorem blank_leaf (he : k.editing = true) (h : Aligned k ms c d) (hheld : c.held = [t])
    (ht : t.kind = .whitespace) : Parallel k
      (((c.putBack.flush .literal).start.1, (d.acceptRead.flush .literal).start.1) :: ms)
      { (c.putBack.flush .literal).start.2.bump.flushRaw with
        lastNode := (d.acceptRead.flush .literal).start.2.lastNode }
      (d.acceptRead.flush .literal).start.2 := by
  obtain ⟨u, hlike, hheld'⟩ := h.exists_held hheld
  have hblank : u.kind.isTrivia = true := by
    rw [hlike.kind, ht]
    rfl
  obtain ⟨fs, gs, hfs, hgs, hframes⟩ := h.frames_blank_leaf he hheld hheld' ht hblank
  have hleft := ((h.left.putBack.flush .literal).start).bump.flushRaw
  have hright := (h.right.acceptRead.flush .literal).start
  -- on the left the blank is read again, into the node of the expression
  have hx := flushes_start c.putBack
  have hnone : (c.putBack.flush .literal).start.2.held = [] := hx.held.trans (held_putBack c)
  have hahead : (c.putBack.flush .literal).start.2.ahead = t :: c.ahead := by
    rw [hx.ahead, ahead_putBack, hheld]
    rfl
  have hread := bump_flushRaw_eq hx.pending hnone hahead
  have hflushed : (c.putBack.flush .literal).start.2.flushed = c.pending ++ c.flushed := by
    rw [hx.flushed, (Moves.putBack c).flushed]
    rfl
  have hcontext := hx.context.trans (Moves.putBack c).context
  have hsame : (c.putBack.flush .literal).start.2.bump.flushRaw.text = c.text :=
    ((text_congr (tokens_flushRaw _)).trans (Moves.bump _).text).trans
      (hx.text.trans (Moves.putBack c).text)
  -- on the right it is flushed with the text in front of it
  have hy := flushes_start d.acceptRead
  have hflushed' : (d.acceptRead.flush .literal).start.2.flushed =
      u :: (d.pending ++ d.flushed) := by
    rw [hy.flushed, pending_acceptRead, hheld', (Moves.acceptRead d).flushed]
    rfl
  rw [hread] at hleft hfs hsame ⊢
  exact {
    left := hleft.of_events_eq rfl rfl hleft.nonempty rfl rfl False.elim
    right := hright
    flushed := by
      rw [hflushed', hflushed]
      exact .cons hlike (h.pending.append h.flushed)
    pending := by
      rw [hy.pending, hx.pending]
      exact .nil
    held := by
      rw [hy.held, held_acceptRead, hnone]
      exact .nil
    ahead := by
      rw [hy.ahead, ahead_acceptRead]
      exact h.ahead
    lastNode := rfl
    options := by rw [hcontext, h.options]
    caseSensitive := by rw [hcontext, h.caseSensitive]
    context := by rw [hy.context, (Moves.acceptRead d).context, hcontext, h.context]
    reports := by
      rw [hy.diagnostics, (Moves.acceptRead d).diagnostics, hx.diagnostics,
        (Moves.putBack c).diagnostics]
      exact h.reports
    text := (text_congr rfl).trans (hsame.trans h.text)
    frames := ⟨fs, gs, hfs.same rfl rfl rfl, hgs, hframes⟩
    none_held := hnone }

end Aligned

/-- A blank may become a leaf of the node before the expression is read. -/
theorem expression_behind_leaf {base : List Event} {m : Marker} {ns : List Marker}
    (h : Sound False base (m :: ns) c) (hh : c.held = []) (last : Option Kind) :
    ({ c.bump.flushRaw with lastNode := last }.bump.expressionBody.flushRaw).complete m .codeBlock =
      ((c.bumpN 2).expressionBody.flushRaw).complete m .codeBlock := by
  have hheld : c.bump.held = [] := held_bump_of_held hh
  have htogether : Together { c.bump.flushRaw with lastNode := last } c.bump
      { c.bump.flushRaw with lastNode := last } c.bump := .refl rfl rfl
  have hend := ((Reaches.refl h).bump.bump.expressionBody.flushRaw).sound
  have hwaiting := (hend.waiting m (List.mem_cons_self ..)).2
  rw [Array.getElem?_toList] at hwaiting
  obtain ⟨ts, rest, fault, hleaf, hread⟩ :=
    (htogether.bump (by exact hheld) hheld).expressionBody (by exact hheld) hheld
  rw [show c.bumpN 2 = c.bump.bump from rfl, ← complete_lastNode rfl .codeBlock last hwaiting, hleaf,
    hread]
  exact congrArg (·.complete m .codeBlock)
    (flushRaw_flushRaw { c.bump with lastNode := last, ahead := rest, fault } ts)

theorem Aligned.implicit_indent (he : k.editing = true) (h : Aligned k ms c d)
    (hheld : c.held = [t]) (ht : t.kind = .whitespace) (hk : c.current = .transition) :
    Parallel k ms (EmbeddedCode.implicit.block (c.putBack.flush .literal))
      (EmbeddedCode.implicit.block (d.acceptRead.flush .literal)) := by
  have hahead : (c.putBack.flush .literal).ahead = t :: c.ahead := by
    rw [ahead_flush, ahead_putBack, hheld]
    rfl
  have hleft := h.left.putBack.flush .literal
  have hright := h.right.acceptRead.flush .literal
  have hat : (d.acceptRead.flush .literal).current = .transition := by
    rw [← hk, ← h.current]
    simp only [Cursor.current, Cursor.nth, ahead_flush, ahead_acceptRead]
  have hnone : (c.putBack.flush .literal).held = [] := by rw [held_flush, held_putBack]
  have hblank := implicitExpression_blank ht hahead hk
  have hexpression := implicitExpression_at hat
  rw [hleft.block_implicit 1 hnone (by rw [hahead]; exact List.cons_ne_nil _ _) hblank,
    hright.block_implicit 0 (by simp) (ahead_ne_nil_of_at (beq_iff_eq.mpr hat) (by decide))
      hexpression, hblank, hexpression,
    ← expression_behind_leaf hleft.start (by rw [held_start, hnone])]
  exact (h.blank_leaf he hheld ht).bump.expressionBody.flushRaw.complete .codeBlock

/-! ## The code parser -/

theorem agrees_implicit (k : Comparison) : (EmbeddedCode.implicit : EmbeddedCode σ).Agrees k where
  lawful := lawful_implicit False fun _ => True
  block h := h.implicitExpression
  comment h := h.inlineComment
  indent he h hheld ht hk := h.implicit_indent he hheld ht hk

end Cursor

end TemplateMarkup
