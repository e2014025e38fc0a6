import TemplateMarkup.Proofs.CodelessScans
import TemplateMarkup.Proofs.Comments
import TemplateMarkup.Proofs.LiteralScans
import TemplateMarkup.Proofs.TokenTable

/-! # Comments end where the look-ahead stops

A comment is looked through once before it is read. The look-ahead walks over
tokens, and the reader scans from one pair of hyphens to the next. Without code
in between both come to the same closer, and in characters this is the first
`-->` behind the opener. -/

namespace TemplateMarkup

open Token

variable {front back ts us : List Token} {t : Token} {length : Nat} {text body rest : List Char}
  {form : Form} {c : Char}

/-! ## Where the look-ahead stops -/

/-- The tokens in front of the closer at which the look-ahead stops, and those from the closer on. -/
def splitAtCloser? : List Token → Option (List Token × List Token)
  | [] => none
  | t :: rest =>
    if opensComment (t :: rest) then none
    else if (commentCloser? (t :: rest)).isSome then some ([], t :: rest)
    else if breaksComment (t :: rest) then none
    else (splitAtCloser? rest).map fun (front, back) => (t :: front, back)

/-- The look-ahead accepts a comment where it stops at a closer. -/
theorem isSome_splitAtCloser? (ts : List Token) : (splitAtCloser? ts).isSome = closesComment ts := by
  induction ts with
  | nil => rfl
  | cons t ts ih =>
    rw [splitAtCloser?, closesComment]
    split
    · rfl
    · split
      · rfl
      · split
        · rfl
        · rw [Option.isSome_map, ih]

/-- The look-ahead stops at the first closer. -/
structure StopsAt (ts front back : List Token) : Prop where
  split : ts = front ++ back
  closer : (commentCloser? back).isSome = true
  first : ∀ us, us ≠ [] → us <:+ front → commentCloser? (us ++ back) = none

theorem stopsAt_of_split (h : splitAtCloser? ts = some (front, back)) : StopsAt ts front back := by
  induction ts generalizing front with
  | nil => cases h
  | cons t ts ih =>
    rw [splitAtCloser?] at h
    split at h
    · cases h
    · split at h
      · next hcloser =>
        cases h
        exact ⟨rfl, hcloser, fun us hne hus => absurd (List.suffix_nil.mp hus) hne⟩
      · next hnone =>
        split at h
        · cases h
        · obtain ⟨⟨front, back⟩, hrest, heq⟩ := Option.map_eq_some_iff.mp h
          cases heq
          obtain ⟨hsplit, hcloser, hfirst⟩ := ih hrest
          refine ⟨by rw [hsplit]; rfl, hcloser, fun us hne hus => ?_⟩
          rcases List.suffix_cons_iff.mp hus with rfl | hus
          · rw [List.cons_append, ← hsplit]
            simpa using hnone
          · exact hfirst us hne hus

/-- A closer begins with a pair of hyphens, and the tokens are as many as it takes. -/
theorem of_closer (h : commentCloser? ts = some length) :
    kindAt ts 0 = .doubleHyphen ∧ 0 < length ∧ length ≤ ts.length := by
  cases ts with
  | nil => cases h
  | cons t ts =>
    rw [commentCloser?] at h
    split at h
    · next hk =>
      refine ⟨hk, ?_⟩
      obtain ⟨n, hn, rfl⟩ := Option.map_eq_some_iff.mp h
      have hlen : n ≤ ts.length := by
        unfold endsComment at hn
        grind [Token.kindAt]
      exact ⟨Nat.succ_pos n, Nat.succ_le_succ hlen⟩
    · cases h

/-! ## The text through the closer -/

/-- What the look-ahead has gone through when it stops, the closer included. -/
def throughCloser? (ts : List Token) : Option (List Char) :=
  (splitAtCloser? ts).map fun (front, back) =>
    textOf (front ++ back.take ((commentCloser? back).getD 0))

theorem throughCloser?_next (hopen : ¬ opensComment (t :: ts) = true)
    (hcloser : commentCloser? (t :: ts) = none) (hbreak : ¬ breaksComment (t :: ts) = true) :
    throughCloser? (t :: ts) = (throughCloser? ts).map (t.text ++ ·) := by
  rw [throughCloser?, splitAtCloser?, if_neg hopen, hcloser, if_neg (by simp), if_neg hbreak,
    throughCloser?, Option.map_map, Option.map_map]
  refine congrArg (Option.map · _) (funext fun split => ?_)
  simp

/-- A token that is neither a `<` nor a pair of hyphens is gone through. -/
theorem throughCloser?_pass (hlt : t.kind ≠ .openAngle) (hpair : t.kind ≠ .doubleHyphen)
    (ts : List Token) : throughCloser? (t :: ts) = (throughCloser? ts).map (t.text ++ ·) := by
  refine throughCloser?_next (fun h => hlt ((opensComment_cons t ts).mp h).1) ?_
    fun h => hpair ((breaksComment_cons t ts).mp h).1
  rw [commentCloser?, if_neg hpair]

/-- Where a token of several characters is gone through, so is each of its characters. -/
theorem throughCloser?_lexFrom (read : List Char) (h : form.Plain) :
    throughCloser? (lexFrom form read text) =
      (throughCloser? (lex text)).map (read.reverse ++ ·) := by
  induction text generalizing form read with
  | nil => exact throughCloser?_pass h.2.1 h.2.2 []
  | cons c rest ih =>
    rw [lexFrom]
    cases he : form.extend? c with
    | none => exact throughCloser?_pass h.2.1 h.2.2 _
    | some longer =>
      obtain ⟨hlonger, hc⟩ := h.extend he
      dsimp only
      rw [ih (c :: read) hlonger, lex, ih [c] hc, Option.map_map]
      refine congrArg (Option.map · _) (funext fun split => ?_)
      simp

theorem throughCloser?_char (hlt : c ≠ '<') (hhyphen : c = '-' → text.head? ≠ some '-') :
    throughCloser? (lex (c :: text)) = (throughCloser? (lex text)).map (c :: ·) := by
  by_cases hc : c = '-'
  · subst hc
    rw [lex_hyphen (hhyphen rfl)]
    exact throughCloser?_pass (by decide) (by decide) _
  · exact throughCloser?_lexFrom [c] (Form.plain_ofChar hlt hc)

theorem throughCloser?_openAngle (h : ¬ ['!', '-', '-'] <+: text) :
    throughCloser? (lex ('<' :: text)) = (throughCloser? (lex text)).map ('<' :: ·) := by
  rw [lex_openAngle]
  refine throughCloser?_next (fun hopen => h ?_) rfl ?_
  · rw [opensComment_cons, kindAt_lex_bang_cons kindAt_lex_doubleHyphen] at hopen
    exact hopen.2
  · simp [breaksComment_cons]

/-- Two hyphens that neither close the comment nor break it are gone through. -/
theorem throughCloser?_pair (hgt : ¬ ['>'] <+: text) (hhyphen : ¬ ['-', '>'] <+: text)
    (hbang : ¬ ['!', '>'] <+: text) : throughCloser? (lex ('-' :: '-' :: text)) =
      (throughCloser? (lex text)).map ('-' :: '-' :: ·) := by
  rw [lex_pair]
  refine throughCloser?_next ?_ ?_ fun hbreak => hbang ?_
  · simp [opensComment_cons]
  · have hends : ¬ (endsComment (lex text)).isSome = true := fun h =>
      (endsComment_lex.mp h).elim hgt hhyphen
    rw [commentCloser?, if_pos rfl, Option.not_isSome_iff_eq_none.mp hends]
    rfl
  · rw [breaksComment_cons, kindAt_lex_bang_cons kindAt_lex_closeAngle] at hbreak
    exact hbreak.2

/-- At a closer the look-ahead stops. -/
theorem throughCloser?_stop (h : commentCloser? ts = some length) :
    throughCloser? ts = some (textOf (ts.take length)) := by
  cases ts with
  | nil => cases h
  | cons t ts =>
    have hopen : ¬ opensComment (t :: ts) = true := by
      rw [opensComment_cons, show t.kind = .doubleHyphen from (of_closer h).1]
      simp
    rw [throughCloser?, splitAtCloser?, if_neg hopen, h, if_pos (Option.isSome_some)]
    simp [h]

theorem throughCloser?_closer (rest : List Char) :
    throughCloser? (lex ('-' :: '-' :: '>' :: rest)) = some ['-', '-', '>'] := by
  rw [lex_pair, lex_whole '>' .closeAngle rfl]
  exact throughCloser?_stop (show commentCloser? _ = some 2 from rfl)

theorem throughCloser?_longCloser (rest : List Char) :
    throughCloser? (lex ('-' :: '-' :: '-' :: '>' :: rest)) = some ['-', '-', '-', '>'] := by
  rw [lex_pair, lex_hyphen (by simp), lex_whole '>' .closeAngle rfl]
  exact throughCloser?_stop (show commentCloser? _ = some 3 from rfl)

namespace Comment

/-- What the look-ahead goes through is the text through the first `-->`. -/
theorem throughCloser?_lex (rest : List Char) (h : ¬ closer <:+: body)
    (hcloses : closesComment (lex (body ++ closer ++ rest)) = true) :
    throughCloser? (lex (body ++ closer ++ rest)) = some (body ++ closer) := by
  induction body using pairs_induction with
  | nil => exact throughCloser?_closer rest
  | pair body ih =>
    have hbody : ¬ closer <:+: body := fun hb => h (infix_cons_left _ (infix_cons_left _ hb))
    have hgt : ¬ ['>'] <+: body ++ closer ++ rest := by
      rw [prefix_closeAngle]
      rintro ⟨more, rfl⟩
      exact h ⟨[], more, rfl⟩
    have hhyphen : ¬ ['-', '>'] <+: body ++ closer ++ rest := by
      rw [prefix_closer]
      rintro ⟨more, rfl⟩
      exact h ⟨['-'], more, rfl⟩
    obtain ⟨hbang, hrest⟩ :=
      ((closesComment_pair (body ++ closer ++ rest)).mp hcloses).resolve_left
        (not_or.mpr ⟨hgt, hhyphen⟩)
    have hthrough := throughCloser?_pair hgt hhyphen hbang
    rw [ih hbody hrest] at hthrough
    exact hthrough
  | char c body hpair ih =>
    have hbody : ¬ closer <:+: body := fun hb => h (infix_cons_left _ hb)
    by_cases hlt : c = '<'
    · subst hlt
      obtain ⟨hopen, hrest⟩ := (closesComment_openAngle (body ++ closer ++ rest)).mp hcloses
      have hthrough := throughCloser?_openAngle hopen
      rw [ih hbody hrest] at hthrough
      exact hthrough
    · by_cases hlast : c = '-' ∧ body = []
      · -- the hyphen makes a pair with the first of the closer
        obtain ⟨rfl, rfl⟩ := hlast
        exact throughCloser?_longCloser rest
      · have hchar : c = '-' → (body ++ closer ++ rest).head? ≠ some '-' := by
          rintro rfl
          obtain ⟨b, more, rfl⟩ := List.exists_cons_of_ne_nil fun hnil => hlast ⟨rfl, hnil⟩
          exact hpair rfl
        have hrest : closesComment (lex (body ++ closer ++ rest)) = true := by
          rw [← closesComment_char hlt hchar]
          exact hcloses
        have hthrough := throughCloser?_char hlt hchar
        rw [ih hbody hrest] at hthrough
        exact hthrough

theorem not_closer_prefix_drop (h : ¬ closer <:+: body) (rest : List Char) {n : Nat}
    (hn : n < body.length) : ¬ closer <+: (body ++ closer ++ rest).drop n := by
  induction body generalizing n with
  | nil => exact absurd hn (Nat.not_lt_zero n)
  | cons c body ih =>
    cases n with
    | zero =>
      intro hprefix
      obtain ⟨rfl, hnext⟩ := List.cons_prefix_cons.mp hprefix
      obtain ⟨more, rfl⟩ := (prefix_closer _ body rest).mp hnext
      exact h ⟨[], more, rfl⟩
    | succ n =>
      exact ih (fun hin => h (infix_cons_left c hin)) (Nat.lt_of_succ_lt_succ hn)

theorem lex_opener (text : List Char) : lex (opener ++ text) =
    ⟨.openAngle, ['<']⟩ :: ⟨.bang, ['!']⟩ :: ⟨.doubleHyphen, ['-', '-']⟩ :: lex text := by
  simp [opener, lex_openAngle, lex_bang, lex_pair]

theorem opener_of_opensComment (h : opensComment (lex text) = true) : opener <+: text := by
  have hlt : kindAt (lex text) 0 = .openAngle := by
    cases hlex : lex text with
    | nil => simp [hlex, opensComment] at h
    | cons t ts => exact ((opensComment_cons t ts).mp (hlex ▸ h)).1
  obtain ⟨rest, rfl⟩ := (kindAt_lex_whole (d := '<') rfl (by decide)).mp hlt
  rw [List.singleton_append, lex_openAngle, opensComment_cons,
    kindAt_lex_bang_cons kindAt_lex_doubleHyphen] at h
  exact List.cons_prefix_cons.mpr ⟨rfl, h.2⟩

end Comment

/-! ## Reading a comment -/

theorem TokenNode.textOf_map_tree (ns : List TokenNode) :
    Tree.textOf (ns.map TokenNode.tree) = textOf (tokensOf ns) := by
  induction ns with
  | nil => rfl
  | cons n ns ih =>
    rw [List.map_cons, Tree.textOf, ih, TokenNode.tree, Tree.text, Tree.textOf_map_ofToken]
    simp [tokensOf]

namespace Cursor

open TemplateMarkup.Tree TokenNode

variable {σ : Type} {code : EmbeddedCode σ} {c d : Cursor σ} {ns : List TokenNode}
  {used : List Token} {bound : Nat} {kind : Kind}

/-- A stretch inside a node of its own. -/
theorem Reads.node (h : Reads ns used c.start.2 d) (hd : d.pending = []) (kind : Kind) :
    (d.complete c.start.1 kind).events.toList =
        (c.flush .literal).events.toList ++ (Tree.node kind (ns.map TokenNode.tree)).events ∧
      (c.overrun = 0 → (d.complete c.start.1 kind).fault = c.fault) := by
  have hlist : d.events.toList = (c.flush .literal).events.toList ++
      .placeholder :: eventsOf (ns.map TokenNode.tree) := by
    rw [h.events]
    simp [start]
  have hget : d.events[c.start.1.index]? = some .placeholder := by
    rw [← Array.getElem?_toList, hlist]
    simp [start]
  have hflush : d.flush .literal = d := flush_of_pending hd _
  rw [complete_eq (by rwa [hflush]), hflush]
  refine ⟨?_, fun ho => ?_⟩
  · simp only [Array.toList_push, Array.toList_setIfInBounds, hlist]
    rw [List.set_append_right _ _ (by simp [start])]
    simp [start, Tree.events]
  · exact (h.fault ((overrun_flush c _).trans ho)).trans (fault_flush c _)

/-- These tokens become a comment with this text, and nothing else happens. -/
structure AddsComment (used : List Token) (text : List Char) (c d : Cursor σ) : Prop where
  node : ∃ ns, tokensOf ns = used ∧ (Tree.node .commentBlock (ns.map TokenNode.tree)).text = text ∧
    d.events.toList = (c.flush .literal).events.toList ++
      (Tree.node .commentBlock (ns.map TokenNode.tree)).events
  flushed : d.flushed = used.reverse ++ (c.flush .literal).flushed
  pending : d.pending = []
  held : d.held = []
  ahead : c.ahead = used ++ d.ahead
  diagnostics : d.diagnostics = c.diagnostics
  fault : c.overrun = 0 → d.fault = c.fault

/-- What is read between its start and its completion is the comment. -/
theorem Reads.addsComment (h : Reads ns used c.start.2 d) (hh : c.held = []) (hd : d.held = [])
    (hp : d.pending = []) :
    AddsComment used (textOf used) c (d.complete c.start.1 .commentBlock) := by
  obtain ⟨hevents, hfault⟩ := h.node hp .commentBlock
  have htokens : tokensOf ns = used := by
    have hunflushed := h.unflushed
    rw [Cursor.unflushed, Cursor.unflushed, hp, hd,
      show c.start.2.pending = [] from pending_flush c _, (held_start c).trans hh] at hunflushed
    simpa using hunflushed
  refine ⟨⟨ns, htokens, ?_, hevents⟩, ?_, pending_complete _ _ _, (held_complete _ _ _).trans hd,
    ?_, ?_, hfault⟩
  · rw [Tree.text, textOf_map_tree, htokens]
  · rw [flushed_complete, hp, ← htokens]
    exact h.flushed
  · rw [ahead_complete, ← h.ahead, ahead_start]
  · exact (diagnostics_complete _ _ _).trans (h.diagnostics.trans (diagnostics_flush c _))

/-- The body is scanned up to its next pair of hyphens or, if it has none, up to its closer. -/
theorem skipTo_hyphens_reads (code : EmbeddedCode σ) (ha : c.ahead = front ++ back)
    (hlength : commentCloser? back = some length)
    (hcode : ∀ t ∈ front, t.kind ≠ .transition ∧ t.kind ≠ .commentOpen) (hc : HasTexts c) :
    ∃ scanned more ns, front = scanned ++ more ∧ Reads ns scanned c (c.skipTo code .doubleHyphen) ∧
      (c.skipTo code .doubleHyphen).held = [] ∧
      (c.skipTo code .doubleHyphen).ahead = more ++ back ∧ more ++ back ≠ [] := by
  obtain ⟨hsplit, hscanned, hmore⟩ := run_spec (·.kind != .doubleHyphen) front
  generalize front.takeWhile (·.kind != .doubleHyphen) = scanned at hsplit hscanned
  generalize front.dropWhile (·.kind != .doubleHyphen) = more at hsplit hmore
  subst hsplit
  rw [List.append_assoc] at ha
  have hfirst := (of_closer hlength).1
  have hpass : ∀ t ∈ scanned,
      t.kind ≠ .doubleHyphen ∧ t.kind ≠ .transition ∧ t.kind ≠ .commentOpen :=
    fun t ht => ⟨by simpa using hscanned t ht, hcode t (List.mem_append_left _ ht)⟩
  have hstop : ∀ t ∈ (more ++ back).head?, t.kind = .doubleHyphen := by
    intro t ht
    cases more with
    | nil =>
      obtain ⟨rest, rfl⟩ := List.head?_eq_some_iff.mp ht
      exact hfirst
    | cons u more =>
      cases ht
      simpa using hmore t rfl
  have hne : more ++ back ≠ [] := by
    intro hnone
    rw [(List.append_eq_nil_iff.mp hnone).2] at hfirst
    cases hfirst
  obtain ⟨ns, hskip, hheld, -⟩ := skipTo_reads code hc ha hpass hstop (by decide)
  exact ⟨scanned, more, ns, rfl, hskip, hheld, hskip.ahead_eq ha, hne⟩

/-- The closer becomes a literal of its own. -/
theorem Reads.closer (h : Reads ns used c d) (hc : HasTexts c) (hheld : d.held = [])
    (ha : d.ahead = back) (hlength : commentCloser? back = some length) :
    ∃ ks, Reads ks (used ++ back.take length) c (((d.flush .literal).bumpN length).flush .literal) ∧
      (((d.flush .literal).bumpN length).flush .literal).pending = [] ∧
      (((d.flush .literal).bumpN length).flush .literal).held = [] := by
  obtain ⟨-, hpos, hlen⟩ := of_closer hlength
  have hcloser : (d.flush .literal).ahead = back.take length ++ back.drop length := by
    rw [ahead_flush, ha, List.take_append_drop]
  have hne : back.take length ≠ [] := List.ne_nil_of_length_pos (by
    rwa [List.length_take_of_le hlen])
  have hflush := h.trans (.flush (h.hasTexts hc) .literal)
  have hclose := Reads.bumpN_flush (hflush.hasTexts hc) (pending_flush d _)
    ((held_flush d _).trans hheld) hcloser hne .literal
  rw [List.length_take_of_le hlen] at hclose
  have hall := hflush.trans hclose
  rw [List.append_nil] at hall
  exact ⟨_, hall, pending_flush _ _,
    (held_flush _ _).trans (held_bumpN ((held_flush d _).trans hheld) _)⟩

/-- With no code in front of it, the reader comes to the closer at which the look-ahead stops, and
accepts it. -/
theorem commentBodyFrom_reads (code : EmbeddedCode σ) (h : StopsAt c.ahead front back)
    (hlength : commentCloser? back = some length)
    (hcode : ∀ t ∈ front, t.kind ≠ .transition ∧ t.kind ≠ .commentOpen)
    (hc : HasTexts c) (hb : front.length < bound) :
    ∃ ns, (commentBodyFrom code bound c).1 = true ∧
      Reads ns (front ++ back.take length) c (commentBodyFrom code bound c).2 ∧
      (commentBodyFrom code bound c).2.pending = [] ∧ (commentBodyFrom code bound c).2.held = [] := by
  induction bound generalizing front c with
  | zero => exact absurd hb (Nat.not_lt_zero _)
  | succ bound ih =>
    obtain ⟨scanned, more, ns, rfl, hskip, hheld, hrest, hne⟩ :=
      skipTo_hyphens_reads code h.split hlength hcode hc
    rw [commentBodyFrom]
    generalize c.skipTo code .doubleHyphen = d at hskip hheld hrest ⊢
    rw [if_neg (by simpa [atEnd, hrest] using hne)]
    cases more with
    | nil =>
      obtain ⟨ks, hclose, hpending, hend⟩ := hskip.closer hc hheld hrest hlength
      rw [hrest, List.nil_append, hlength, List.append_nil]
      exact ⟨ks, rfl, hclose, hpending, hend⟩
    | cons t more =>
      have hnone : commentCloser? (t :: more ++ back) = none :=
        h.first _ (List.cons_ne_nil _ _) (List.suffix_append _ _)
      rw [hrest, hnone]
      have hbump := hskip.trans (Reads.bump hrest)
      have hnext : d.bump.ahead = more ++ back := hbump.ahead_eq (by simp [h.split])
      have hstops : StopsAt d.bump.ahead more back :=
        ⟨hnext, h.closer, fun us hus hsuffix => h.first us hus
          (hsuffix.trans ((List.suffix_cons t more).trans (List.suffix_append _ _)))⟩
      obtain ⟨ks, hclosed, hreads, hpending, hend⟩ := ih hstops
        (fun u hu => hcode u (by simp [hu])) (hbump.hasTexts hc)
        (by simp only [List.length_append, List.length_cons] at hb; omega)
      have hall := hbump.trans hreads
      rw [← List.append_assoc, List.append_assoc scanned, List.singleton_append] at hall
      exact ⟨_, hclosed, hall, hpending, hend⟩

/-- A comment is read to the closer at which the look-ahead stops, if no code comes in front of it. -/
theorem htmlComment_reads (code : EmbeddedCode σ) (hh : c.held = []) (hc : ∀ t ∈ c.ahead, t.text ≠ [])
    (hopen : opensComment c.ahead = true) (h : StopsAt (c.ahead.drop 3) front back)
    (hlength : commentCloser? back = some length)
    (hcode : ∀ t ∈ front, t.kind ≠ .transition ∧ t.kind ≠ .commentOpen) :
    (c.htmlComment code).1 = true ∧ AddsComment (c.ahead.take 3 ++ (front ++ back.take length))
      (textOf (c.ahead.take 3 ++ (front ++ back.take length))) c (c.htmlComment code).2 := by
  have hlen : (c.ahead.take 3).length = 3 := by
    rw [List.length_take]
    unfold opensComment at hopen
    grind
  have hstart : HasTexts c.start.2 := fun t ht => by
    refine hc t ?_
    simpa [unflushed, start, hh] using ht
  have hsplit : c.start.2.ahead = c.ahead.take 3 ++ c.ahead.drop 3 := by
    rw [ahead_start, List.take_append_drop]
  have hopener := Reads.bumpN_flush hstart (pending_flush c _) ((held_start c).trans hh) hsplit
    (List.ne_nil_of_length_eq_add_one hlen) .literal
  rw [hlen] at hopener
  have hbody : ((c.start.2.bumpN 3).flush .literal).ahead = c.ahead.drop 3 :=
    hopener.ahead_eq hsplit
  have hbound : front.length < ((c.start.2.bumpN 3).flush .literal).unclaimed + 1 :=
    Nat.lt_succ_of_le (length_le_unclaimed (hbody.trans h.split) fun t ht =>
      hc t (List.mem_of_mem_drop (by rw [h.split]; exact List.mem_append_left _ ht)))
  obtain ⟨ns, hclosed, hreads, hpending, hheld⟩ :=
    commentBodyFrom_reads code (hbody ▸ h) hlength hcode (hopener.hasTexts hstart) hbound
  have hall := hopener.trans hreads
  exact ⟨hclosed, hall.addsComment hh hheld hpending⟩

open Comment

/-- Wherever a comment is recognised, the look-ahead stops at a closer, and with it ends the text
through the first `-->` behind the opener. If no code comes in front of it, this is read as one
comment, and the cursor is where the look-ahead stopped. -/
theorem htmlComment_closes (code : EmbeddedCode σ) {source : List Char} (hh : c.held = [])
    (ha : c.ahead <:+ lex source) (hahead : commentAhead c.ahead = true) :
    ∃ front back length body rest,
      splitAtCloser? (c.ahead.drop 3) = some (front, back) ∧ commentCloser? back = some length ∧
      textOf c.ahead = opener ++ body ++ closer ++ rest ∧
      (∀ n < body.length, ¬ closer <+: (body ++ closer ++ rest).drop n) ∧
      textOf (c.ahead.take 3 ++ (front ++ back.take length)) = opener ++ body ++ closer ∧
      ((∀ t ∈ front, t.kind ≠ .transition ∧ t.kind ≠ .commentOpen) →
        (c.htmlComment code).1 = true ∧
        AddsComment (c.ahead.take 3 ++ (front ++ back.take length)) (opener ++ body ++ closer) c
          (c.htmlComment code).2 ∧
        (c.htmlComment code).2.ahead = back.drop length) := by
  have htexts : ∀ t ∈ c.ahead, t.text ≠ [] := fun t ht => text_ne_nil_of_mem_lex (ha.subset ht)
  rw [commentAhead, Bool.and_eq_true, Bool.and_eq_true] at hahead
  obtain ⟨⟨hopen, -⟩, hcloses⟩ := hahead
  have hlex := lex_textOf_suffix ha
  obtain ⟨text, htext⟩ := opener_of_opensComment (hlex.symm ▸ hopen)
  rw [← htext, lex_opener] at hlex
  have hdrop : c.ahead.drop 3 = lex text := by rw [← hlex]; rfl
  rw [hdrop] at hcloses
  obtain ⟨body, rest, rfl, hbody⟩ := exists_first (closer_infix_of_closes hcloses)
  have hfirst := hbody (by decide)
  obtain ⟨⟨front, back⟩, hsplit⟩ :=
    Option.isSome_iff_exists.mp ((isSome_splitAtCloser? _).trans hcloses)
  have hstops := stopsAt_of_split hsplit
  obtain ⟨length, hlength⟩ := Option.isSome_iff_exists.mp hstops.closer
  have hclose : textOf (front ++ back.take length) = body ++ closer := by
    have hthrough := throughCloser?_lex rest hfirst hcloses
    rw [throughCloser?, hsplit, Option.map_some, Option.some.injEq] at hthrough
    simpa [hlength] using hthrough
  have htake : textOf (c.ahead.take 3 ++ (front ++ back.take length)) = opener ++ body ++ closer := by
    rw [Token.textOf_append, hclose, ← hlex, List.append_assoc]
    rfl
  refine ⟨front, back, length, body, rest, hdrop ▸ hsplit, hlength, ?_, ?_, htake, fun hcode => ?_⟩
  · rw [← htext, List.append_assoc, List.append_assoc, List.append_assoc]
  · exact fun n hn => not_closer_prefix_drop hfirst rest hn
  · obtain ⟨hclosed, hadds⟩ :=
      htmlComment_reads code hh htexts hopen (hdrop ▸ hstops) hlength hcode
    rw [htake] at hadds
    have hrest : c.ahead = c.ahead.take 3 ++ (front ++ back.take length) ++ back.drop length := by
      rw [List.append_assoc, List.append_assoc, List.take_append_drop, ← hstops.split, ← hdrop,
        List.take_append_drop]
    exact ⟨hclosed, hadds, (List.append_cancel_left (hrest.symm.trans hadds.ahead)).symm⟩

/-- A pair of hyphens in the body, and a run of three that touches the `>`. -/
theorem htmlComment_closes_hyphens :
    let c : Cursor Unit := { ahead := lex "<!-- a -- b --->x".toList, context := {}, host := () }
    commentAhead c.ahead = true ∧ (c.htmlComment .implicit).1 = true ∧
      AddsComment (lex "<!-- a -- b --->".toList) "<!-- a -- b --->".toList c
        (c.htmlComment .implicit).2 ∧
      (c.htmlComment .implicit).2.ahead = [⟨.text, ['x']⟩] := by
  intro c
  have hahead : commentAhead c.ahead = true := by decide
  obtain ⟨front, back, length, body, rest, hsplit, hlength, -, -, htext, hread⟩ :=
    htmlComment_closes .implicit rfl (List.suffix_refl (lex "<!-- a -- b --->x".toList)) hahead
  have hstops : splitAtCloser? (c.ahead.drop 3) =
      some (lex " a -- b ".toList, lex "--->x".toList) := by decide
  rw [hstops] at hsplit
  cases hsplit
  have hthree : commentCloser? (lex "--->x".toList) = some 3 := by decide
  rw [hthree] at hlength
  cases hlength
  obtain ⟨hclosed, hadds, hrest⟩ := hread (by decide)
  rw [← htext] at hadds
  exact ⟨hahead, hclosed, hadds, hrest⟩

end Cursor

end TemplateMarkup
