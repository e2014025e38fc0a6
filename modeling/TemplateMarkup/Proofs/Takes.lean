import TemplateMarkup.Proofs.Offsets
import TemplateMarkup.Proofs.Scanning
import TemplateMarkup.Proofs.View

/-! # Reading known tokens

`Takes` is a stretch of a parse over tokens that are known: it takes exactly
these, and adds exactly these pieces. What follows a stretch stays as it is, so
stretches are put together with `trans`. -/

namespace TemplateMarkup.Cursor

variable {σ : Type} {c d e : Cursor σ} {used more : List Token} {ps qs : List Piece}

theorem runLength_eq {test : Token → Bool} {rest : List Token} (ha : c.ahead = used ++ rest)
    (hall : ∀ t ∈ used, test t = true) (hstop : ∀ t ∈ rest.head?, test t = false) :
    c.runLength test 0 = used.length := by
  have hrest : rest.takeWhile test = [] := by
    cases rest with
    | nil => rfl
    | cons t rest => simp [hstop t rfl]
  rw [runLength, ha, List.drop_zero, List.takeWhile_append_of_pos hall, hrest, List.append_nil]

/-- A run is accepted token by token. -/
theorem bumpWhile_eq {test : Token → Bool} {rest : List Token} (ha : c.ahead = used ++ rest)
    (hall : ∀ t ∈ used, test t = true) (hstop : ∀ t ∈ rest.head?, test t = false) :
    c.bumpWhile test = c.bumpN used.length := by
  rw [bumpWhile, runLength_eq ha hall hstop]

structure Takes (used : List Token) (ps : List Piece) (c d : Cursor σ) : Prop where
  adds : Adds ps c d
  ahead : c.ahead = used ++ d.ahead
  held : d.held = []
  tokens : d.tokens = c.tokens

namespace Takes

theorem refl (h : c.held = []) : Takes [] [] c c := ⟨Adds.refl c, rfl, h, rfl⟩

theorem trans (h : Takes used ps c d) (h' : Takes more qs d e) :
    Takes (used ++ more) (ps ++ qs) c e :=
  ⟨h.adds.trans h'.adds, by rw [h.ahead, h'.ahead, List.append_assoc], h'.held,
    h'.tokens.trans h.tokens⟩

/-- A stretch that takes no token and shows nothing. -/
theorem silent (h : Takes used ps c d) (h' : Adds [] d e) (hahead : e.ahead = d.ahead)
    (hheld : e.held = d.held) (htokens : e.tokens = d.tokens) : Takes used ps c e := by
  have hnone : Takes [] [] d e := ⟨h', by rw [hahead]; rfl, hheld.trans h.held, htokens⟩
  have ht := h.trans hnone
  rwa [List.append_nil, List.append_nil] at ht

theorem ahead_eq (h : Takes used ps c d) {rest : List Token} (ha : c.ahead = used ++ rest) :
    d.ahead = rest :=
  (List.append_cancel_left (ha.symm.trans h.ahead)).symm

theorem context_eq (h : Takes used ps c d) : d.context = c.context := h.adds.context

theorem offset_eq (h : Takes used ps c d) : d.offset = c.offset + Token.widthOf used := by
  have hc := offset_add_ahead c
  have hd := offset_add_ahead d
  rw [h.tokens, ← hc, h.ahead, Token.widthOf_append] at hd
  omega

/-! ## Single operations -/

theorem bump {t : Token} {rest : List Token} (hh : c.held = []) (ha : c.ahead = t :: rest) :
    Takes [t] [.leaf t] c c.bump := by
  have hadds := Adds.bump ha
  rw [hh] at hadds
  exact ⟨hadds, by rw [ahead_bump, ha]; rfl, held_bump ha, tokens_bump c⟩

theorem bumpN (hh : c.held = []) {rest : List Token} (ha : c.ahead = used ++ rest) :
    Takes used (used.map .leaf) c (c.bumpN used.length) := by
  have hadds := Adds.bumpN hh used.length
  rw [ha, List.take_left] at hadds
  exact ⟨hadds, by rw [ahead_bumpN, ha, List.drop_left], held_bumpN hh _, tokens_bumpN c _⟩

theorem bumpWhile {test : Token → Bool} (hh : c.held = []) {rest : List Token}
    (ha : c.ahead = used ++ rest) (hall : ∀ t ∈ used, test t = true)
    (hstop : ∀ t ∈ rest.head?, test t = false) :
    Takes used (used.map .leaf) c (c.bumpWhile test) := by
  rw [bumpWhile_eq ha hall hstop]
  exact bumpN hh ha

theorem flush_literal (h : Takes used ps c d) : Takes used ps c (d.flush .literal) :=
  h.silent (Adds.flush_literal d) (ahead_flush d _) (held_flush d _) (tokens_flush d _)

/-- A stretch inside a node of its own. -/
theorem node (h : Takes used ps c.start.2 d) (kind : Kind) (hk : kind ≠ .literal) :
    Takes used [.part kind ps] c (d.complete c.start.1 kind) where
  adds := h.adds.node kind hk
  ahead := by
    rw [ahead_complete, ← h.ahead]
    exact (ahead_start c).symm
  held := (held_complete d _ _).trans h.held
  tokens := (tokens_complete d _ _).trans (h.tokens.trans (tokens_start c))

theorem eat_true {kind : Kind} {t : Token} {rest : List Token} (hh : c.held = [])
    (ha : c.ahead = t :: rest) (hk : t.kind = kind) :
    c.eat kind = (true, c.bump) ∧ Takes [t] [.leaf t] c c.bump := by
  refine ⟨?_, bump hh ha⟩
  rw [eat, if_pos]
  simp [at?, current_cons ha, hk]

end Takes

/-- From one cursor to the other, the node that is finished last is of the kind. -/
structure Finishes (kind : Kind) (c d : Cursor σ) : Prop where
  lastNode : ∀ {m : Marker} {ps : List Piece} {outer : List Frame}, Views c m ps outer →
    d.lastNode = some kind

/-- What stands before the node does not matter. -/
theorem Takes.finishes {kind : Kind} (h : Takes used ps c d) (h' : Finishes kind d e) :
    Finishes kind c e :=
  ⟨fun hv => h'.lastNode (h.adds.view hv)⟩

theorem Takes.finishes_node (h : Takes used ps c.start.2 d) (kind : Kind) :
    Finishes kind c (d.complete c.start.1 kind) :=
  ⟨fun hv => (h.adds.view hv.start).lastNode_complete kind⟩

theorem eat_false {kind : Kind} {rest : List Token} (ha : c.ahead = rest)
    (hk : Token.kindAt rest 0 ≠ kind) : c.eat kind = (false, c) := by
  rw [eat, if_neg]
  simpa [at?, current, nth, ha] using hk

/-! ## Scanning over plain tokens -/

/-- Whether a scan for a kind passes a token without looking at it. -/
def Passes (kind : Kind) (t : Token) : Prop :=
  t.kind ≠ kind ∧ t.kind ≠ .transition ∧ t.kind ≠ .commentOpen ∧ t.kind ≠ .endOfInput

/-- A step over a plain token adds what was held and either adds the token too or holds it. -/
theorem scanStep_adds (code : EmbeddedCode σ) (place : LinePlace) {t : Token} {rest : List Token}
    (hflag : c.context.ephemeralLineEnding = false) (ha : c.ahead = t :: rest)
    (htrans : t.kind ≠ .transition) (hcomment : t.kind ≠ .commentOpen) :
    ∃ read, Adds (read.map .leaf) c (c.scanStep code place).2 ∧
      read ++ (c.scanStep code place).2.held.reverse = c.held.reverse ++ [t] ∧
      (c.scanStep code place).2.ahead = rest ∧ (c.scanStep code place).2.tokens = c.tokens := by
  have hcur : c.current = t.kind := current_cons ha
  have ho := scanStep_outcome code place c
  generalize c.scanStep code place = r at ho ⊢
  cases ho with
  | lineEnding h => exact absurd h (by simp [hflag])
  | newline =>
    refine ⟨_, Adds.bump ha, ?_, by rw [ahead_bump, ha, List.tail_cons], tokens_bump c⟩
    rw [held_bump ha, List.reverse_nil, List.append_nil]
  | doubled _ h | code _ h => exact absurd (hcur.symm.trans h) htrans
  | comment _ h | commentLine _ h => exact absurd (hcur.symm.trans h) hcomment
  | other =>
    have hread := (Adds.acceptRead c).trans (Adds.advance c.acceptRead)
    rw [List.append_nil] at hread
    exact ⟨_, hread, by simp [Cursor.advance, ha], by simp [Cursor.advance, ha], by simp⟩

/-- A scan for kinds reads tokens of other kinds one by one. -/
theorem scanFrom_takes (code : EmbeddedCode σ) (stops : Kind → Bool) {bound : Nat}
    (place : LinePlace) {rest : List Token} (hflag : c.context.ephemeralLineEnding = false)
    (ha : c.ahead = used ++ rest)
    (hpass : ∀ t ∈ used, stops t.kind = false ∧ t.kind ≠ .transition ∧ t.kind ≠ .commentOpen)
    (hstop : ∀ t ∈ rest.head?, stops t.kind = true) (hb : used.length < bound) :
    Adds ((c.held.reverse ++ used).map .leaf) c
        (scanFrom code (fun c => stops c.current) bound place c) ∧
      (scanFrom code (fun c => stops c.current) bound place c).ahead = rest ∧
      (scanFrom code (fun c => stops c.current) bound place c).held = [] ∧
      (scanFrom code (fun c => stops c.current) bound place c).tokens = c.tokens := by
  induction used generalizing c bound place with
  | nil =>
    obtain ⟨bound, rfl⟩ := Nat.exists_eq_add_of_lt hb
    have hend : (c.atEnd || stops c.current) = true := by
      cases rest with
      | nil => simp [atEnd, ha]
      | cons t rest => simp [current_cons ha, hstop t rfl]
    rw [scanFrom, if_pos hend, List.append_nil]
    exact ⟨Adds.acceptRead c, (ahead_acceptRead c).trans ha, held_acceptRead c,
      tokens_acceptRead c⟩
  | cons t used ih =>
    obtain ⟨⟨hk, htrans, hcomment⟩, hpass'⟩ := List.forall_mem_cons.mp hpass
    cases bound with
    | zero => exact absurd hb (Nat.not_lt_zero _)
    | succ bound =>
      obtain ⟨read, hstep, hsplit, hahead, htokens⟩ :=
        scanStep_adds code place hflag ha htrans hcomment
      obtain ⟨hadds, hrest, hheld, htokens'⟩ := ih (c.scanStep code place).1
        (by rw [hstep.context, hflag]) hahead hpass' (Nat.lt_of_succ_lt_succ hb)
      rw [scanFrom, if_neg (by simp [atEnd, ha, current_cons ha, hk])]
      refine ⟨?_, hrest, hheld, htokens'.trans htokens⟩
      have hall := hstep.trans hadds
      rwa [← List.map_append, ← List.append_assoc, hsplit, List.append_assoc,
        List.singleton_append] at hall

theorem length_le_textOf {ts : List Token} (h : ∀ t ∈ ts, t.text ≠ []) :
    ts.length ≤ (Token.textOf ts).length := by
  induction ts with
  | nil => exact Nat.le_refl _
  | cons t ts ih =>
    have ht := List.length_pos_iff.mpr (h t (List.mem_cons_self ..))
    have hts := ih fun u hu => h u (List.mem_cons_of_mem t hu)
    simp only [Token.textOf_cons, List.length_cons, List.length_append]
    omega

/-- Parts that have tokens are no more than these. -/
theorem length_le_flatMap {α : Type} {tokens : α → List Token} (h : ∀ a, 1 ≤ (tokens a).length)
    (as : List α) : as.length ≤ (as.flatMap tokens).length := by
  induction as with
  | nil => exact Nat.le_refl _
  | cons a as ih =>
    have ha := h a
    rw [List.flatMap_cons, List.length_append, List.length_cons]
    omega

theorem length_le_unclaimed {rest : List Token} (ha : c.ahead = used ++ rest)
    (hne : ∀ t ∈ used, t.text ≠ []) : used.length ≤ c.unclaimed := by
  have hle := length_le_textOf hne
  rw [unclaimed, ha, Token.textOf_append, List.length_append]
  omega

/-- A scan may take more steps than there are tokens. -/
theorem length_lt_budget (code : EmbeddedCode σ) {rest : List Token} (ha : c.ahead = used ++ rest)
    (hne : ∀ t ∈ used, t.text ≠ []) : used.length < code.budget c := by
  have hle := length_le_unclaimed ha hne
  have hbudget : 2 * c.unclaimed + 2 ≤ code.budget c := Nat.le_mul_of_pos_left _ (Nat.succ_pos _)
  omega

/-- A scan takes everything up to the first token of such a kind. -/
theorem Takes.skipUntil (code : EmbeddedCode σ) (stops : Kind → Bool) {rest : List Token}
    (hh : c.held = []) (hflag : c.context.ephemeralLineEnding = false)
    (hne : ∀ t ∈ used, t.text ≠ []) (ha : c.ahead = used ++ rest)
    (hpass : ∀ t ∈ used, stops t.kind = false ∧ t.kind ≠ .transition ∧ t.kind ≠ .commentOpen)
    (hstop : ∀ t ∈ rest.head?, stops t.kind = true) :
    Takes used (used.map .leaf) c (c.skipUntil code fun c => stops c.current) := by
  obtain ⟨hadds, hahead, hheld, htokens⟩ :=
    scanFrom_takes code stops .inside hflag ha hpass hstop (length_lt_budget code ha hne)
  rw [hh] at hadds
  exact ⟨hadds, by rw [ha]; exact congrArg _ hahead.symm, hheld, htokens⟩

theorem Takes.skipTo (code : EmbeddedCode σ) {kind : Kind} {rest : List Token} (hh : c.held = [])
    (hflag : c.context.ephemeralLineEnding = false) (hne : ∀ t ∈ used, t.text ≠ [])
    (ha : c.ahead = used ++ rest) (hpass : ∀ t ∈ used, Passes kind t)
    (hstop : ∀ t ∈ rest.head?, t.kind = kind) :
    Takes used (used.map .leaf) c (c.skipTo code kind) :=
  Takes.skipUntil code (· == kind) hh hflag hne ha
    (fun t ht => ⟨beq_eq_false_iff_ne.mpr (hpass t ht).1, (hpass t ht).2.1, (hpass t ht).2.2.1⟩)
    fun t ht => beq_iff_eq.mpr (hstop t ht)

end TemplateMarkup.Cursor
