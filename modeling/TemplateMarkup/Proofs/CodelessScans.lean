import TemplateMarkup.Proofs.TagParts
import TemplateMarkup.Proofs.TokenNodes

/-! # Scans that meet no code

Between two pieces of code a scan reads tokens up to its stop and changes nothing
else. Only where the code before has asked for the ending of its line not to be
rendered does it make nodes on its way. `Reads` says what is read and which nodes
are made of it, for any code parser, since none is called. -/

namespace TemplateMarkup.Cursor

open TemplateMarkup.Tree TokenNode

variable {σ : Type} {c d e : Cursor σ} {ns ks : List TokenNode} {used more rest : List Token}
  {t : Token} {kind : Kind}

/-- The tokens that are read and no leaves yet. -/
def unflushed (c : Cursor σ) : List Token := c.pending.reverse ++ c.held.reverse

/-- No token is empty that is no leaf yet. -/
def HasTexts (c : Cursor σ) : Prop := ∀ t ∈ c.unflushed ++ c.ahead, t.text ≠ []

/-- These tokens are read. They and those that were not flushed become these nodes, as far as they
become any. -/
structure Reads (ns : List TokenNode) (used : List Token) (c d : Cursor σ) : Prop where
  events : d.events.toList = c.events.toList ++ eventsOf (ns.map TokenNode.tree)
  flushed : d.flushed = (tokensOf ns).reverse ++ c.flushed
  unflushed : tokensOf ns ++ d.unflushed = c.unflushed ++ used
  ahead : c.ahead = used ++ d.ahead
  overrun : d.overrun = c.overrun
  fault : c.overrun = 0 → d.fault = c.fault
  diagnostics : d.diagnostics = c.diagnostics
  context : c.context.ephemeralLineEnding = false → d.context = c.context

namespace Reads

theorem refl (c : Cursor σ) : Reads [] [] c c where
  events := (List.append_nil _).symm
  flushed := rfl
  unflushed := (List.append_nil _).symm
  ahead := rfl
  overrun := rfl
  fault _ := rfl
  diagnostics := rfl
  context _ := rfl

theorem trans (h : Reads ns used c d) (h' : Reads ks more d e) :
    Reads (ns ++ ks) (used ++ more) c e where
  events := by rw [h'.events, h.events, List.map_append, eventsOf_append, List.append_assoc]
  flushed := by rw [h'.flushed, h.flushed, tokensOf_append, List.reverse_append, List.append_assoc]
  unflushed := by
    rw [tokensOf_append, List.append_assoc, h'.unflushed, ← List.append_assoc, h.unflushed,
      List.append_assoc]
  ahead := by rw [h.ahead, h'.ahead, List.append_assoc]
  overrun := h'.overrun.trans h.overrun
  fault ho := (h'.fault (h.overrun.trans ho)).trans (h.fault ho)
  diagnostics := h'.diagnostics.trans h.diagnostics
  context hflag := (h'.context (by rw [h.context hflag, hflag])).trans (h.context hflag)

theorem hasTexts (h : Reads ns used c d) (hc : HasTexts c) : HasTexts d := by
  intro t ht
  refine hc t ?_
  rw [h.ahead, ← List.append_assoc, ← h.unflushed, List.append_assoc]
  exact List.mem_append_right _ ht

theorem ahead_eq (h : Reads ns used c d) (ha : c.ahead = used ++ rest) : d.ahead = rest :=
  (List.append_cancel_left (ha.symm.trans h.ahead)).symm

/-! ### Single operations -/

theorem bump (ha : c.ahead = t :: rest) : Reads [] [t] c c.bump := by
  constructor <;> simp [Cursor.bump, ha, Cursor.unflushed, eventsOf]

theorem advance (ha : c.ahead = t :: rest) : Reads [] [t] c c.advance := by
  constructor <;> simp [Cursor.advance, ha, Cursor.unflushed, eventsOf]

theorem acceptRead (c : Cursor σ) : Reads [] [] c c.acceptRead := by
  constructor <;> unfold Cursor.acceptRead <;> dsimp only <;> split <;>
    simp_all [Cursor.fail, Cursor.unflushed, eventsOf]

/-- The request not to render the ending of a line is taken off. -/
theorem answer (hflag : c.context.ephemeralLineEnding = true) :
    Reads [] [] c { c with context.ephemeralLineEnding := false } := by
  constructor <;> simp [hflag, Cursor.unflushed, eventsOf]

theorem bumpN (ha : c.ahead = used ++ rest) : Reads [] used c (c.bumpN used.length) := by
  induction used generalizing c with
  | nil => exact refl c
  | cons t used ih =>
    have hfirst := bump ha
    have hrest : c.bump.ahead = used ++ rest := hfirst.ahead_eq (show c.ahead = [t] ++ _ from ha)
    exact hfirst.trans (ih hrest)

theorem flush (hc : HasTexts c) (kind : Kind) :
    Reads (ofPending kind c.pending) [] c (c.flush kind) where
  events := by
    rw [events_flush, flushEvents, ofPending]
    by_cases hp : c.pending = []
    · simp [hp, eventsOf]
    · have htexts : ∀ t ∈ c.pending.reverse, t.text ≠ [] := fun t ht =>
        hc t (List.mem_append_left _ (List.mem_append_left _ ht))
      simp [-List.map_reverse, hp, eventsOf, TokenNode.tree, Tree.events, eventsOf_map_ofToken htexts]
  flushed := by rw [flushed_flush, tokensOf_ofPending, List.reverse_reverse]
  unflushed := by simp [Cursor.unflushed]
  ahead := (ahead_flush c kind).symm
  overrun := overrun_flush c kind
  fault _ := fault_flush c kind
  diagnostics := diagnostics_flush c kind
  context _ := context_flush c kind

/-- With nothing waiting, the next tokens become a node. -/
theorem bumpN_flush (hc : HasTexts c) (hp : c.pending = []) (hh : c.held = [])
    (ha : c.ahead = used ++ rest) (hne : used ≠ []) (kind : Kind) :
    Reads [⟨kind, used⟩] used c ((c.bumpN used.length).flush kind) := by
  have hread := bumpN ha
  have hpending : (c.bumpN used.length).pending = used.reverse := by
    rw [bumpN_eq hh, ha, List.take_left]
    simp [hp]
  have hall := hread.trans (.flush (hread.hasTexts hc) kind)
  rw [hpending, ofPending, if_neg (by simpa using hne), List.reverse_reverse] at hall
  rwa [List.append_nil, List.nil_append] at hall

end Reads

/-- A token that has nothing to do with code is read in a step. -/
theorem scanStep_reads (code : EmbeddedCode σ) (place : LinePlace)
    (hflag : c.context.ephemeralLineEnding = false) (ha : c.ahead = t :: rest)
    (htrans : t.kind ≠ .transition) (hcomment : t.kind ≠ .commentOpen) :
    Reads [] [t] c (c.scanStep code place).2 := by
  have hcur : c.current = t.kind := current_cons ha
  have ho := scanStep_outcome code place c
  generalize c.scanStep code place = r at ho ⊢
  cases ho with
  | lineEnding h => exact absurd h (by simp [hflag])
  | newline => exact .bump ha
  | doubled _ h | code _ h => exact absurd (hcur.symm.trans h) htrans
  | comment _ h | commentLine _ h => exact absurd (hcur.symm.trans h) hcomment
  | other => exact (Reads.acceptRead c).trans (.advance ((ahead_acceptRead c).trans ha))

/-- A scan reads tokens without code and stops behind them. -/
theorem scanFrom_passes (code : EmbeddedCode σ) (stop : Cursor σ → Bool) (place : LinePlace)
    {bound : Nat} (hflag : c.context.ephemeralLineEnding = false) (ha : c.ahead = used ++ rest)
    (hpass : ∀ t ∈ used, t.kind ≠ .transition ∧ t.kind ≠ .commentOpen ∧
      ∀ d : Cursor σ, d.current = t.kind → stop d = false)
    (hstop : ∀ d : Cursor σ, d.ahead = rest → (d.atEnd || stop d) = true) (hb : used.length < bound) :
    Reads [] used c (scanFrom code stop bound place c) ∧
      (scanFrom code stop bound place c).held = [] := by
  induction used generalizing c bound place with
  | nil =>
    obtain ⟨bound, rfl⟩ := Nat.exists_eq_add_of_lt hb
    rw [scanFrom, if_pos (hstop c ha)]
    exact ⟨.acceptRead c, held_acceptRead c⟩
  | cons t used ih =>
    obtain ⟨⟨htrans, hcomment, hgo⟩, hpass'⟩ := List.forall_mem_cons.mp hpass
    cases bound with
    | zero => exact absurd hb (Nat.not_lt_zero _)
    | succ bound =>
      have hread := scanStep_reads code place hflag ha htrans hcomment
      obtain ⟨hreads, hheld⟩ := ih (c.scanStep code place).1 (by rw [hread.context hflag, hflag])
        (hread.ahead_eq ha) hpass' (Nat.lt_of_succ_lt_succ hb)
      rw [scanFrom, if_neg (by simp [atEnd, ha, hgo c (current_cons ha)])]
      exact ⟨hread.trans hreads, hheld⟩

/-- A line ending that is not rendered is read before the scan's stop. -/
theorem endLine_reads (hc : HasTexts c) (hp : c.pending = []) (hh : c.held = [])
    (ha : c.ahead = used ++ rest)
    (hstop : ∀ t ∈ rest.head?, t.kind ≠ .whitespace ∧ t.kind ≠ .newline) :
    ∃ ns front back, used = front ++ back ∧ Reads ns front c c.endLine.2 := by
  have hnone : ∃ ns front back, used = front ++ back ∧ Reads ns front c c :=
    ⟨[], [], used, rfl, .refl c⟩
  have hsome {n : Nat} (hn : n < used.length) : ∃ ns front back, used = front ++ back ∧
      Reads ns front c ((c.bumpN (n + 1)).flush .ephemeral) := by
    have hlen : (used.take (n + 1)).length = n + 1 := List.length_take_of_le hn
    have hline : c.ahead = used.take (n + 1) ++ (used.drop (n + 1) ++ rest) := by
      rw [← List.append_assoc, List.take_append_drop, ha]
    have hnode := Reads.bumpN_flush hc hp hh hline (List.ne_nil_of_length_eq_add_one hlen) .ephemeral
    rw [hlen] at hnode
    exact ⟨_, _, _, (List.take_append_drop _ _).symm, hnode⟩
  -- neither the blanks nor the line ending are what the scan stops at
  have hin {n : Nat} (hn : n ≤ used.length)
      (hk : c.nth n = .whitespace ∨ c.nth n = .newline) : n < used.length := by
    refine Nat.lt_of_le_of_ne hn fun heq => ?_
    have hfirst : c.nth n = Token.kindAt rest 0 := nth_eq (by rw [ha, heq, List.drop_left])
    rw [hfirst] at hk
    cases rest with
    | nil => rcases hk with hk | hk <;> cases hk
    | cons t rest => exact hk.elim (hstop t rfl).1 (hstop t rfl).2
  unfold endLine ephemeralLineEnd
  dsimp only
  by_cases hblank : c.at? .whitespace = true
  · have hfirst : 0 < used.length :=
      hin (Nat.zero_le _) (.inl (by simpa [at?, current] using hblank))
    rw [if_pos hblank]
    split
    · next hk => exact hsome (hin hfirst (.inr hk))
    · exact hnone
  · rw [if_neg hblank]
    split
    · next hk => exact hsome (hin (Nat.zero_le _) (.inr hk))
    · exact hnone

/-- The step that answers a request reads a line ending that comes next, and nothing else. -/
theorem scanStep_answers (code : EmbeddedCode σ) (place : LinePlace) (hc : HasTexts c)
    (hflag : c.context.ephemeralLineEnding = true) (ha : c.ahead = used ++ rest)
    (hstop : ∀ t ∈ rest.head?, t.kind ≠ .whitespace ∧ t.kind ≠ .newline) :
    ∃ ns front back, used = front ++ back ∧ Reads ns front c (c.scanStep code place).2 ∧
      (c.scanStep code place).2.context.ephemeralLineEnding = false := by
  have hanswer := (Reads.answer hflag).trans (.acceptRead _)
  have hflush := hanswer.trans (.flush (hanswer.hasTexts hc) .literal)
  have hline : ({ c with context.ephemeralLineEnding := false }.acceptRead.flush .literal).ahead =
      used ++ rest := by simp [ha]
  have hanswered : ({ c with context.ephemeralLineEnding := false }.acceptRead.flush
      .literal).context.ephemeralLineEnding = false := by simp
  obtain ⟨ns, front, back, hused, hends⟩ := endLine_reads (hflush.hasTexts hc)
    (pending_flush _ .literal) ((held_flush _ _).trans (held_acceptRead _)) hline hstop
  rw [scanStep, if_pos hflag]
  exact ⟨_, front, back, hused, hflush.trans hends, by rw [hends.context hanswered, hanswered]⟩

/-- A scan for a kind reads up to the first token of it. It makes no node, unless a line ending is
not to be rendered. -/
theorem scanFrom_reads (code : EmbeddedCode σ) {bound : Nat} (place : LinePlace) (hc : HasTexts c)
    (ha : c.ahead = used ++ rest)
    (hpass : ∀ t ∈ used, t.kind ≠ kind ∧ t.kind ≠ .transition ∧ t.kind ≠ .commentOpen)
    (hstop : ∀ t ∈ rest.head?, t.kind = kind) (hkind : kind ≠ .whitespace ∧ kind ≠ .newline)
    (hb : used.length + c.lineEndingDue < bound) :
    ∃ ns, Reads ns used c (scanFrom code (·.at? kind) bound place c) ∧
      (scanFrom code (·.at? kind) bound place c).held = [] ∧
      (c.context.ephemeralLineEnding = false → ns = []) := by
  have hgo : ∀ t ∈ used, t.kind ≠ .transition ∧ t.kind ≠ .commentOpen ∧
      ∀ d : Cursor σ, d.current = t.kind → d.at? kind = false := fun t ht =>
    ⟨(hpass t ht).2.1, (hpass t ht).2.2, fun d hd => by simp [at?, hd, (hpass t ht).1]⟩
  have hend (d : Cursor σ) (hd : d.ahead = rest) : (d.atEnd || d.at? kind) = true := by
    cases rest with
    | nil => simp [atEnd, hd]
    | cons t rest => simp [at?, current_cons hd, hstop t rfl]
  cases hflag : c.context.ephemeralLineEnding with
  | false =>
    obtain ⟨hreads, hheld⟩ := scanFrom_passes code (·.at? kind) place hflag ha hgo hend
      (Nat.lt_of_le_of_lt (Nat.le_add_right ..) hb)
    exact ⟨[], hreads, hheld, fun _ => rfl⟩
  | true =>
    obtain ⟨bound, rfl⟩ := Nat.exists_eq_add_of_lt hb
    cases used with
    | nil =>
      rw [scanFrom, if_pos (hend c ha)]
      exact ⟨[], .acceptRead c, held_acceptRead c, fun h => Bool.noConfusion h⟩
    | cons t used =>
      -- behind the first step nothing is asked for any more
      obtain ⟨ns, front, back, hused, hstep, hanswered⟩ := scanStep_answers code place hc hflag ha
        fun t ht => by rw [hstop t ht]; exact hkind
      have hmore : ¬ (c.atEnd || c.at? kind) = true := by
        simp [atEnd, ha, (hgo t (List.mem_cons_self ..)).2.2 c (current_cons ha)]
      rw [hused] at ha hgo hb ⊢
      have hrest := hstep.ahead_eq (by rw [ha, List.append_assoc])
      have hlt : back.length < (front ++ back).length + c.lineEndingDue + bound := by
        have hdue : c.lineEndingDue = 1 := by simp [lineEndingDue, hflag]
        rw [hdue, List.length_append]
        omega
      obtain ⟨hreads, hheld⟩ := scanFrom_passes code (·.at? kind) (c.scanStep code place).1 hanswered
        hrest (fun u hu => hgo u (List.mem_append_right _ hu)) hend hlt
      rw [scanFrom, if_neg hmore]
      exact ⟨_, hstep.trans hreads, hheld, fun h => Bool.noConfusion h⟩

theorem skipTo_reads (code : EmbeddedCode σ) (hc : HasTexts c) (ha : c.ahead = used ++ rest)
    (hpass : ∀ t ∈ used, t.kind ≠ kind ∧ t.kind ≠ .transition ∧ t.kind ≠ .commentOpen)
    (hstop : ∀ t ∈ rest.head?, t.kind = kind) (hkind : kind ≠ .whitespace ∧ kind ≠ .newline) :
    ∃ ns, Reads ns used c (c.skipTo code kind) ∧ (c.skipTo code kind).held = [] ∧
      (c.context.ephemeralLineEnding = false → ns = []) := by
  refine scanFrom_reads code .inside hc ha hpass hstop hkind ?_
  have hle := length_le_unclaimed ha fun t ht =>
    hc t (List.mem_append_right _ (by rw [ha]; exact List.mem_append_left _ ht))
  have hdue := lineEndingDue_le c
  have hbudget : 2 * c.unclaimed + 2 ≤ code.budget c := Nat.le_mul_of_pos_left _ (Nat.succ_pos _)
  omega

end TemplateMarkup.Cursor
