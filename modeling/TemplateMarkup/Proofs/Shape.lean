import TemplateMarkup.Proofs.Units

/-! # The tree of a run

A run starts two nodes before it reads anything. Whatever is read in between,
as long as it is sound, the run ends with the unit as the first child of the
root, and with what the unit left over as the only other one. -/

namespace TemplateMarkup

/-- A tree that has one unit of markup over the beginning of the source, and
the rest of the source, if there is any, behind it. -/
structure Tree.Covers (tree : Tree) (source : List Char) : Prop where
  text_eq : tree.text = source
  shape : ∃ block rest, tree = .node .root (.node .markupBlock block :: rest) ∧
    (rest = [] ∨ ∃ unparsed, rest = [.node .unparsed unparsed] ∧ Tree.textOf unparsed ≠ [])

namespace Cursor

open Event

variable {σ : Type} {strict : Prop} {c d : Cursor σ}

/-- A cursor behind one finished node, between the events `before` and nothing. -/
structure Finished (strict : Prop) (before : List Event) (kind : Kind) (own : List Event)
    (c : Cursor σ) : Prop where
  fault : c.fault = none
  pending : c.pending = []
  nonempty : ∀ t ∈ c.tokens, t.text ≠ []
  events : c.events.toList = before ++ (.start kind :: own ++ [.finish])
  balanced : Balanced own
  taken : takenKinds before ++ takenKinds own = c.flushed.reverse.map Token.kind
  filled : strict → .placeholder ∉ own

/-- A strict client that owns no node has left no placeholder of its own. -/
theorem Sound.filled {base own : List Event} (h : Sound strict base [] c) (hstrict : strict)
    (hown : c.events.toList = base ++ own) : .placeholder ∉ own := by
  intro hmem
  obtain ⟨i, hi⟩ := List.mem_iff_getElem?.mp hmem
  refine absurd (h.owned hstrict (base.length + i) (Nat.le_add_right _ _) ?_) List.not_mem_nil
  rw [hown, List.getElem?_append_right (Nat.le_add_right _ _), Nat.add_sub_cancel_left, hi]

theorem Sound.finished (before : List Event) (h : Sound strict (before ++ [.placeholder]) [] c)
    (kind : Kind) : ∃ own, Finished strict before kind own (c.complete ⟨before.length⟩ kind) := by
  have hf := h.flush .literal
  obtain ⟨own, hown, hb⟩ := hf.balanced
  have hget : (c.flush .literal).events[before.length]? = some .placeholder := by
    rw [← Array.getElem?_toList, hown]
    simp
  have htaken := hf.taken
  rw [hown] at htaken
  refine ⟨own, ?_⟩
  have hfilled (hstrict : strict) : .placeholder ∉ own := hf.filled hstrict hown
  rw [complete_eq hget]
  refine ⟨hf.fault, pending_flush c _, hf.nonempty, ?_, hb, by simpa [takenKinds] using htaken,
    hfilled⟩
  simp [hown]

/-- All that is left becomes leaves of one node. -/
theorem claimRest (hp : c.pending = []) (hh : c.held = []) :
    ∃ d : Cursor σ, ((c.start.2.bumpN c.start.2.ahead.length).flushRaw).complete c.start.1
        .unparsed = d ∧
      d.tokens = c.tokens ∧ d.fault = c.fault ∧ d.pending = [] ∧ d.diagnostics = c.diagnostics ∧
      d.host = c.host ∧ d.events.toList = c.events.toList ++
        (.start .unparsed :: c.ahead.map (fun t => .token t.kind 1) ++ [.finish]) := by
  have hb := bumpN_eq (c := { c with events := c.events.push .placeholder }) hh c.ahead.length
  rw [List.take_length, List.drop_length] at hb
  rw [start_of_pending hp, hb, hp]
  refine ⟨_, rfl, by rw [tokens_complete]; simp [tokens, hp, hh, flushRaw], ?_⟩
  rw [complete_eq, flush_of_pending rfl]
  · refine ⟨rfl, rfl, rfl, rfl, ?_⟩
    simp [flushRaw]
  · rw [flush_of_pending rfl, ← Array.getElem?_toList]
    simp [flushRaw]

/-- The rest of the source is a node of its own, unless there is none. -/
theorem Finished.leaveRest {kind : Kind} {own : List Event}
    (h : Finished strict [.placeholder] kind own c) : ∃ rest : List Token,
      c.tokens = c.flushed.reverse ++ rest ∧
      c.leaveRest.tokens = c.tokens ∧ c.leaveRest.fault = none ∧ c.leaveRest.pending = [] ∧
      c.leaveRest.diagnostics = c.diagnostics ∧ c.leaveRest.host = c.host ∧
      c.leaveRest.events.toList = .placeholder :: (.start kind :: own ++ [.finish]) ++
        if rest = [] then [] else
          .start .unparsed :: rest.map (fun t => .token t.kind 1) ++ [.finish] := by
  have hheld : c.putBack.held = [] := held_putBack c
  have hpending : c.putBack.pending = [] := h.pending
  have hevents : c.putBack.events.toList = .placeholder :: (.start kind :: own ++ [.finish]) :=
    h.events
  have htokens : c.tokens = c.flushed.reverse ++ c.putBack.ahead := by
    rw [ahead_putBack, tokens, h.pending]
    simp
  refine ⟨c.putBack.ahead, htokens, ?_⟩
  unfold Cursor.leaveRest
  dsimp only
  by_cases ha : c.putBack.ahead = []
  · rw [if_pos (by simp [atEnd, ha]), if_pos ha]
    exact ⟨tokens_putBack c, h.fault, hpending, rfl, rfl, by rw [hevents, List.append_nil]⟩
  · rw [if_neg (by simpa [atEnd] using ha), if_neg ha]
    obtain ⟨d, hd, htok, hfault, hpend, hdiag, hhost, hlist⟩ := claimRest hpending hheld
    rw [hd]
    exact ⟨htok.trans (tokens_putBack c), hfault.trans h.fault, hpend, hdiag, hhost,
      by rw [hlist, hevents]⟩

theorem takenKinds_map_token (ts : List Token) :
    takenKinds (ts.map fun t => .token t.kind 1) = ts.map Token.kind := by
  have h := Sound.takenKinds_tokens ts.reverse
  rwa [List.reverse_reverse] at h

/-- The events of a run build the tree that covers all tokens. -/
theorem Finished.ofEvents? {own : List Event} (h : Finished strict [.placeholder] .markupBlock own c)
    {rest : List Token} (hrest : c.tokens = c.flushed.reverse ++ rest) :
    ∃ tree, Tree.ofEvents? c.tokens (.start .root :: ((.start .markupBlock :: own ++ [.finish]) ++
        if rest = [] then [] else
          .start .unparsed :: rest.map (fun t => .token t.kind 1) ++ [.finish]) ++ [.finish]) =
      some tree ∧ tree.Covers c.text ∧
      ((tree.child? .unparsed).map Tree.text).getD [] = Token.textOf rest := by
  have htaken : (takenKinds own).length = c.flushed.reverse.length := by
    have := congrArg List.length h.taken
    simpa [takenKinds] using this
  obtain ⟨block, hblock, hblockText⟩ := Tree.Builder.foldlM_step_node
    (b := ⟨c.tokens, [(.root, [])], []⟩) (k := .markupBlock) h.balanced rfl
    (by rw [htaken, hrest, List.length_append]; omega)
  rw [htaken] at hblock hblockText
  simp only [hrest, List.take_left, List.drop_left] at hblock hblockText
  by_cases hr : rest = []
  · subst hr
    rw [if_pos rfl, List.append_nil]
    refine ⟨_, Tree.ofEvents?_node [.node .markupBlock block] ?_, ⟨?_, block, [], rfl,
      .inl rfl⟩, rfl⟩
    · rw [hrest]
      exact hblock
    · simp [Tree.text, Tree.textOf, hblockText, Cursor.text, hrest]
  · rw [if_neg hr]
    have hbalanced : Balanced (rest.map fun t => .token t.kind 1) := by
      have := Balanced.map_token (rest.map Token.kind)
      rwa [List.map_map] at this
    have hlen : (takenKinds (rest.map fun t => .token t.kind 1)).length = rest.length := by
      rw [takenKinds_map_token, List.length_map]
    obtain ⟨unparsed, hunparsed, hunparsedText⟩ := Tree.Builder.foldlM_step_node
      (b := ⟨rest, [(.root, [.node .markupBlock block])], []⟩) (k := .unparsed) hbalanced rfl
      (Nat.le_of_eq hlen)
    rw [hlen, List.take_length] at hunparsedText
    rw [hlen, List.drop_length] at hunparsed
    have hne : Tree.textOf unparsed ≠ [] := by
      obtain ⟨t, ts, rfl⟩ := List.exists_cons_of_ne_nil hr
      have ht := h.nonempty t (by simp [hrest])
      rw [hunparsedText]
      simp [ht]
    refine ⟨_, Tree.ofEvents?_node
      [.node .unparsed unparsed, .node .markupBlock block] ?_, ⟨?_, block,
      [.node .unparsed unparsed], rfl, .inr ⟨unparsed, rfl, hne⟩⟩, hunparsedText⟩
    · rw [List.foldlM_append, hrest, hblock]
      exact hunparsed
    · simp [Tree.text, Tree.textOf, hblockText, hunparsedText, Cursor.text, hrest]

theorem diagnostics_of_result {c : Cursor σ} {p : Parse σ} (h : c.result = .ok p) :
    p.diagnostics = c.diagnostics.toList := by
  unfold Cursor.result at h
  split at h
  · cases h
  · cases h
  · cases h
    rfl

/-- A finished unit of markup becomes a tree that covers the source. What the unit does not accept is
left to the host. -/
theorem Finished.result {own : List Event} (h : Finished strict [.placeholder] .markupBlock own d) :
    ∃ p, (d.leaveRest.complete ⟨0⟩ .root).result = .ok p ∧ p.tree.Covers d.text ∧ p.host = d.host ∧
      p.unparsedText?.getD [] = Token.textOf (d.held.reverse ++ d.ahead) ∧
      (d.leaveRest.complete ⟨0⟩ .root).diagnostics = d.diagnostics ∧
      (strict → .placeholder ∉ (d.leaveRest.complete ⟨0⟩ .root).events.toList) := by
  obtain ⟨rest, hrest, htokens, hfault, hpending, hdiag, hhost, hlist⟩ := h.leaveRest
  obtain ⟨tree, htree, hcovers, hunparsed⟩ := h.ofEvents? hrest
  have hunread : d.held.reverse ++ d.ahead = rest := by
    rw [Cursor.tokens, h.pending, List.reverse_nil, List.append_nil, List.append_assoc] at hrest
    exact List.append_cancel_left hrest
  generalize d.leaveRest = e at *
  have hget : (e.flush .literal).events[0]? = some .placeholder := by
    rw [flush_of_pending hpending, ← Array.getElem?_toList, hlist]
    rfl
  have hroot : (e.complete ⟨0⟩ .root).events.toList = .start .root ::
      ((.start .markupBlock :: own ++ [.finish]) ++ if rest = [] then [] else
        .start .unparsed :: rest.map (fun t => .token t.kind 1) ++ [.finish]) ++ [.finish] := by
    rw [complete_eq (m := ⟨0⟩) hget, flush_of_pending hpending]
    simp [hlist]
  have hfault' : (e.complete ⟨0⟩ .root).fault = none := by
    rw [complete_eq (m := ⟨0⟩) hget, flush_of_pending hpending, hfault]
  refine ⟨⟨tree, (e.complete ⟨0⟩ .root).diagnostics.toList, (e.complete ⟨0⟩ .root).host⟩, ?_,
    hcovers, by rw [host_complete, hhost], hunread ▸ hunparsed,
    (diagnostics_complete ..).trans hdiag, fun hstrict => ?_⟩
  · rw [Cursor.result, hfault', tokens_complete, htokens, hroot, htree]
  · have hfilled := h.filled hstrict
    rw [hroot]
    split <;> simpa using hfilled

/-- What a strict client leaves behind: every node closed, and every report within a source of the
width. -/
structure Settled (c : Cursor σ) (width : Nat) : Prop where
  filled : .placeholder ∉ c.events.toList
  within : ∀ d ∈ c.diagnostics.toList, d.range.Fits width

/-- A run ends with a tree that covers the source if what it reads the unit by is sound. What this
does not accept is left to the host. -/
theorem run_result {body : Cursor σ → Cursor σ} (hevents : c.events = #[]) (hp : c.pending = [])
    (hbody : Sound strict [.placeholder, .placeholder] [] (body c.start.2.start.2))
    (htext : (body c.start.2.start.2).text = c.text) :
    ∃ p, (c.run fun c => (body c.start.2).complete c.start.1 .markupBlock).result = .ok p ∧
      p.tree.Covers c.text ∧ p.host = (body c.start.2.start.2).host ∧
      p.unparsedText?.getD [] = Token.textOf
        ((body c.start.2.start.2).held.reverse ++ (body c.start.2.start.2).ahead) ∧
      (strict → (c.run fun c => (body c.start.2).complete c.start.1 .markupBlock).Settled
        (Text.width c.text)) := by
  have hroot : c.start.1 = ⟨0⟩ := by rw [start_of_pending hp, hevents]; rfl
  have hunit : c.start.2.start.1 = ⟨1⟩ := by
    rw [start_of_pending hp, start_of_pending (by exact hp), hevents]
    rfl
  obtain ⟨own, hfin⟩ := Sound.finished [.placeholder] hbody .markupBlock
  simp only [List.length_singleton] at hfin
  have htext' : ((body c.start.2.start.2).complete ⟨1⟩ .markupBlock).text = c.text :=
    (text_congr (tokens_complete _ _ _)).trans htext
  unfold Cursor.run
  dsimp only
  rw [hroot, hunit, flush_of_pending hfin.pending]
  obtain ⟨p, hp, hcovers, hhost, hunparsed, hdiag, hfilled⟩ := hfin.result
  rw [held_complete, ahead_complete] at hunparsed
  refine ⟨p, hp, htext' ▸ hcovers, hhost.trans (host_complete ..), hunparsed,
    fun hstrict => ⟨hfilled hstrict, ?_⟩⟩
  rw [hdiag, diagnostics_complete, ← htext]
  exact hbody.within hstrict

end Cursor

end TemplateMarkup
