import TemplateMarkup.Proofs.Lossless

/-! # Calls of the code parser

A code parser that keeps a log shows what its calls did to the cursor; apart from
that it reads the same. Whatever the calls do by cursor operations, each one from
a scan moves the cursor forward, and each one from the loop over attributes does
so if nothing is held when it is made. So scans come to an end, and whole parses
do if no call leaves anything held. Otherwise the loop may go on for ever. -/

namespace TemplateMarkup

/-! ## Another host -/

namespace Cursor

variable {σ τ : Type}

/-- The cursor with another state of the host. -/
def withHost (c : Cursor σ) (host : τ) : Cursor τ := { c with host }

variable (c : Cursor σ) (x : τ)

theorem withHost_bump : c.bump.withHost x = (c.withHost x).bump := by
  unfold bump
  dsimp only [withHost]
  split <;> rfl

theorem withHost_advance : c.advance.withHost x = (c.withHost x).advance := by
  unfold advance
  dsimp only [withHost]
  split <;> rfl

theorem withHost_acceptRead : c.acceptRead.withHost x = (c.withHost x).acceptRead := by
  unfold acceptRead
  by_cases h : c.overrun = 0 <;> simp [withHost, fail, h]

theorem withHost_splitAfter (count : Nat) :
    (c.splitAfter count).withHost x = (c.withHost x).splitAfter count := by
  unfold splitAfter
  dsimp only [withHost]
  split
  · rfl
  · split <;> rfl

theorem withHost_flush (kind : Kind) : (c.flush kind).withHost x = (c.withHost x).flush kind :=
  apply_ite (withHost · x) ..

theorem withHost_missing (kind : Kind) :
    (c.missing kind).withHost x = (c.withHost x).missing kind := by
  unfold missing
  rw [← withHost_flush]
  rfl

theorem start_withHost : (c.withHost x).start = (c.start.1, c.start.2.withHost x) := by
  unfold start
  rw [← withHost_flush]
  rfl

theorem withHost_complete (m : Marker) (kind : Kind) :
    (c.complete m kind).withHost x = (c.withHost x).complete m kind := by
  unfold complete
  rw [← withHost_flush]
  exact apply_ite (withHost · x) ..

theorem withHost_abandon (m : Marker) : (c.abandon m).withHost x = (c.withHost x).abandon m := by
  unfold abandon
  by_cases h : m.index + 1 = c.events.size
  · by_cases hplace : c.events[m.index]? = some .placeholder <;> simp [withHost, fail, h, hplace]
  · simp [withHost, h]

theorem withHost_report (problem : Problem) (range : Range) :
    (c.report problem range).withHost x = (c.withHost x).report problem range := by
  unfold report
  by_cases h : range.stop < range.start <;> simp [withHost, fail, h]

variable {c x} {strict : Prop} {base : List Event} {ms ns : List Marker} {d : Cursor σ}

theorem Sound.withHost (h : Sound strict base ms c) (x : τ) : Sound strict base ms (c.withHost x) :=
  ⟨h.fault, h.overrun, h.nonempty, h.taken, h.balanced, h.nodup, h.waiting, h.owned, h.within⟩

/-- What a client does with the cursor has nothing to do with the host. -/
theorem Step.withHost (s : Step strict c ms d ns) (x : τ) :
    Step strict (c.withHost x) ms (d.withHost x) ns := by
  cases s with
  | bump => exact withHost_bump c x ▸ .bump
  | advance => exact withHost_advance c x ▸ .advance
  | acceptRead => exact withHost_acceptRead c x ▸ .acceptRead
  | rewind index hindex => exact .rewind index hindex
  | splitAfter count => exact withHost_splitAfter c x count ▸ .splitAfter count
  | flush kind => exact withHost_flush c x kind ▸ .flush kind
  | flushRaw => exact .flushRaw
  | missing kind => exact withHost_missing c x kind ▸ .missing kind
  | start =>
    have hstep : Step strict (c.withHost x) ms (c.withHost x).start.2
      ((c.withHost x).start.1 :: ms) := .start
    rwa [start_withHost] at hstep
  | complete kind => exact withHost_complete c x _ kind ▸ .complete kind
  | abandon hstrict => exact withHost_abandon c x _ ▸ .abandon hstrict
  | report problem range hr hw =>
    exact withHost_report c x problem range ▸ .report problem range hr hw
  | context context => exact .context context
  | host host => exact .host x
  | reorder hp => exact .reorder hp

theorem Path.withHost (p : Path strict c ms d ns) (x : τ) :
    Path strict (c.withHost x) ms (d.withHost x) ns := by
  induction p with
  | refl => exact .refl
  | tail _ s ih => exact ih.tail (s.withHost x)

end Cursor

/-! ## Logs -/

/-- What one call did to the cursor. -/
structure Call where
  /-- How many tokens were read and not accepted when the call was made. -/
  unaccepted : Nat
  /-- The index of the next token when the call was made. -/
  before : Nat
  /-- The index of the next token when the call was over. -/
  after : Nat
  deriving DecidableEq, Repr

/-- The call moved the cursor towards the end of the source. -/
def Call.Forward (r : Call) : Prop := r.before < r.after

instance (r : Call) : Decidable r.Forward := inferInstanceAs (Decidable (_ < _))

/-- The cursor without the log of its host. -/
def Cursor.unlogged {σ : Type} (c : Cursor (σ × List Call)) : Cursor σ := c.withHost c.host.1

namespace EmbeddedCode

open Cursor

variable {σ : Type}

/-- Makes a call of the code parser and adds it to the log. -/
def logCall (run : Cursor σ → Cursor σ) (c : Cursor (σ × List Call)) : Cursor (σ × List Call) :=
  let d := run c.unlogged
  let call : Call :=
    { unaccepted := c.held.length
      before := c.position
      after := (ensureProgress c.position d).position }
  d.withHost (d.host, call :: c.host.2)

/-- The code parser with a log of its calls, the latest first. -/
def logged (code : EmbeddedCode σ) : EmbeddedCode (σ × List Call) where
  parseBlock := logCall code.parseBlock
  parseComment := logCall code.parseComment
  patience s := code.patience s.1

end EmbeddedCode

namespace Cursor

/-! ### A log changes nothing else -/

section Unlogged

variable {σ : Type} (code : EmbeddedCode σ) (c : Cursor (σ × List Call))

theorem current_unlogged : c.unlogged.current = c.current := rfl

theorem nth_unlogged (n : Nat) : c.unlogged.nth n = c.nth n := rfl

theorem position_unlogged : c.unlogged.position = c.position := rfl

theorem atEnd_unlogged : c.unlogged.atEnd = c.atEnd := rfl

theorem at?_unlogged (kind : Kind) : c.unlogged.at? kind = c.at? kind := rfl

theorem context_unlogged : c.unlogged.context = c.context := rfl

theorem runLength_unlogged (test : Token → Bool) (n : Nat) :
    c.unlogged.runLength test n = c.runLength test n := rfl

theorem textBetween_unlogged (start stop : Nat) :
    c.unlogged.textBetween start stop = c.textBetween start stop := rfl

theorem unlogged_bump : c.bump.unlogged = c.unlogged.bump := by
  rw [unlogged, host_bump, withHost_bump, unlogged]

theorem unlogged_bumpN (n : Nat) : (c.bumpN n).unlogged = c.unlogged.bumpN n := by
  induction n generalizing c with
  | zero => rfl
  | succ n ih => exact (ih c.bump).trans (congrArg (bumpN · n) (unlogged_bump c))

theorem unlogged_advance : c.advance.unlogged = c.unlogged.advance := by
  rw [unlogged, host_advance, withHost_advance, unlogged]

theorem unlogged_acceptRead : c.acceptRead.unlogged = c.unlogged.acceptRead := by
  rw [unlogged, host_acceptRead, withHost_acceptRead, unlogged]

theorem unlogged_flush (kind : Kind) : (c.flush kind).unlogged = c.unlogged.flush kind := by
  rw [unlogged, host_flush, withHost_flush, unlogged]

theorem unlogged_complete (m : Marker) (kind : Kind) :
    (c.complete m kind).unlogged = c.unlogged.complete m kind := by
  rw [unlogged, host_complete, withHost_complete, unlogged]

theorem unlogged_bumpWhile (test : Token → Bool) :
    (c.bumpWhile test).unlogged = c.unlogged.bumpWhile test := unlogged_bumpN c _

theorem unlogged_eat (kind : Kind) : (c.eat kind).2.unlogged = (c.unlogged.eat kind).2 := by
  unfold eat
  rw [at?_unlogged]
  split
  · exact unlogged_bump c
  · rfl

theorem start_unlogged : c.unlogged.start = (c.start.1, c.start.2.unlogged) := by
  rw [unlogged, start_withHost, unlogged, host_start]

theorem unlogged_ensureProgress (before : Nat) :
    (EmbeddedCode.ensureProgress before c).unlogged =
      EmbeddedCode.ensureProgress before c.unlogged := by
  unfold EmbeddedCode.ensureProgress
  rw [position_unlogged, atEnd_unlogged]
  split
  · rw [unlogged_flush, unlogged_bump]
  · rfl

theorem unlogged_block : (code.logged.block c).unlogged = code.block c.unlogged :=
  unlogged_ensureProgress _ _

theorem unlogged_comment : (code.logged.comment c).unlogged = code.comment c.unlogged :=
  unlogged_ensureProgress _ _

theorem unlogged_endLine : (c.endLine.1, c.endLine.2.unlogged) = c.unlogged.endLine := by
  unfold endLine ephemeralLineEnd
  rw [at?_unlogged]
  generalize (if c.at? .whitespace then 1 else 0) = blanks
  dsimp only
  rw [nth_unlogged]
  by_cases hn : c.nth blanks = .newline
  · simp only [if_pos hn, unlogged_flush, unlogged_bumpN]
  · simp only [if_neg hn]

theorem unlogged_scanStep (place : LinePlace) :
    ((c.scanStep code.logged place).1, (c.scanStep code.logged place).2.unlogged) =
      c.unlogged.scanStep code place := by
  have hline : c.unlogged.atLineStart = c.atLineStart := rfl
  have hput : c.unlogged.putBack = c.putBack.unlogged := rfl
  have hwith (context : Context) : { c.unlogged with context } = { c with context }.unlogged := rfl
  unfold scanStep
  rw [current_unlogged, context_unlogged, nth_unlogged, hline, hwith, hput]
  by_cases hflag : c.context.ephemeralLineEnding = true
  · simp only [if_pos hflag]
    rw [unlogged_endLine, unlogged_flush, unlogged_acceptRead]
  · simp only [if_neg hflag]
    split
    · rw [unlogged_bump]
    · split
      · rw [unlogged_bump, unlogged_flush, unlogged_bump, unlogged_flush, unlogged_acceptRead]
      · rw [unlogged_block, unlogged_flush]
        split
        · rfl
        · rw [unlogged_acceptRead]
    · split
      · rw [unlogged_endLine, unlogged_comment, unlogged_flush, unlogged_acceptRead, unlogged_flush]
      · rw [unlogged_comment, unlogged_flush, unlogged_acceptRead, unlogged_flush]
    · rw [unlogged_advance, unlogged_acceptRead]

theorem unlogged_scanFrom (stop : Cursor σ → Bool) (bound : Nat) (place : LinePlace) :
    (scanFrom code.logged (fun c => stop c.unlogged) bound place c).unlogged =
      scanFrom code stop bound place c.unlogged := by
  induction bound generalizing place c with
  | zero => rfl
  | succ bound ih =>
    unfold scanFrom
    rw [atEnd_unlogged]
    split
    · exact unlogged_acceptRead c
    · rw [← unlogged_scanStep]
      exact ih _ _

theorem unlogged_skipUntil (stop : Cursor σ → Bool) :
    (c.skipUntil code.logged fun c => stop c.unlogged).unlogged = c.unlogged.skipUntil code stop :=
  unlogged_scanFrom code c stop _ _

theorem unlogged_skipTo (kind : Kind) :
    (c.skipTo code.logged kind).unlogged = c.unlogged.skipTo code kind :=
  unlogged_skipUntil code c (·.at? kind)

theorem unlogged_attributeValue :
    ((c.attributeValue code.logged).1, (c.attributeValue code.logged).2.unlogged) =
      c.unlogged.attributeValue code := by
  have hbare (c : Cursor (σ × List Call)) :
      (c.skipUntil code.logged atBareValueEnd).unlogged =
        c.unlogged.skipUntil code atBareValueEnd := unlogged_skipUntil code c atBareValueEnd
  unfold attributeValue
  rw [current_unlogged]
  dsimp only
  by_cases hq : c.current = .doubleQuote ∨ c.current = .singleQuote
  · simp only [if_pos hq]
    rw [← unlogged_bump, start_unlogged, position_unlogged, ← unlogged_skipTo, textBetween_unlogged,
      position_unlogged, ← unlogged_complete, ← unlogged_eat]
  · simp only [if_neg hq]
    rw [start_unlogged, position_unlogged, ← hbare, textBetween_unlogged, position_unlogged,
      ← unlogged_complete]

theorem unlogged_readAttribute :
    ((c.readAttribute code.logged).1, (c.readAttribute code.logged).2.unlogged) =
      c.unlogged.readAttribute code := by
  unfold readAttribute
  rw [start_unlogged]
  dsimp only
  rw [← unlogged_bumpWhile]
  generalize c.start.2.bumpWhile (!·.kind.endsAttributeName) = d
  rw [position_unlogged, position_unlogged, textBetween_unlogged, runLength_unlogged]
  generalize d.runLength (·.kind == .whitespace) 0 = blanks
  rw [nth_unlogged]
  by_cases hn : d.nth blanks = .equals
  · simp only [if_pos hn]
    rw [← unlogged_bumpN, ← unlogged_bumpWhile, ← unlogged_attributeValue, ← unlogged_complete]
  · simp only [if_neg hn]
    rw [← unlogged_complete]

theorem unlogged_attributesFrom (bound : Nat) :
    ((attributesFrom code.logged bound c).1, (attributesFrom code.logged bound c).2.unlogged) =
      attributesFrom code bound c.unlogged := by
  induction bound generalizing c with
  | zero => rfl
  | succ bound ih =>
    unfold attributesFrom
    dsimp only
    rw [← unlogged_bumpWhile]
    generalize c.bumpWhile (·.kind.isTrivia) = d
    rw [current_unlogged, nth_unlogged]
    split
    · rfl
    · rfl
    · rfl
    · split
      · rfl
      · rw [ih, unlogged_bump]
    · rw [ih, unlogged_block, unlogged_flush]
    · rw [ih, unlogged_comment, unlogged_flush]
    iterate 3
      · rw [ih, unlogged_bump]
    · rw [← unlogged_readAttribute, ← ih]

/-- The attributes are those that the code parser without a log reads. -/
theorem unlogged_attributes :
    ((c.attributes code.logged).1, (c.attributes code.logged).2.unlogged) =
      c.unlogged.attributes code := unlogged_attributesFrom code c _

end Unlogged

end Cursor

/-! ## Laws with a log -/

namespace EmbeddedCode

open Cursor

variable {σ : Type} {code : EmbeddedCode σ} {ok : σ → Prop} {strict : Prop} {base : List Event}
  {c : Cursor (σ × List Call)} {ms : List Marker}

theorem path_logCall {run : Cursor σ → Cursor σ}
    (p : Path strict c.unlogged ms (run c.unlogged) ms) : Path strict c ms (logCall run c) ms :=
  (p.withHost c.host).tail (.host _)

theorem Stepwise.logged (hl : code.Stepwise strict ok) :
    code.logged.Stepwise strict fun s => ok s.1 where
  respects :=
    { refl := fun _ => id
      trans := fun h h' hu => h (h' hu)
      parseBlock := fun c => hl.respects.parseBlock c.unlogged
      parseComment := fun c => hl.respects.parseComment c.unlogged }
  block h hok := path_logCall (hl.block (h.withHost _) hok)
  comment h hok := path_logCall (hl.comment (h.withHost _) hok)

theorem Tidy.logged (hl : code.Tidy strict ok) : code.logged.Tidy strict fun s => ok s.1 where
  toStepwise := hl.toStepwise.logged
  block_held h hh hok := hl.block_held (h.withHost _) hh hok
  comment_held h hh hok := hl.comment_held (h.withHost _) hh hok

end EmbeddedCode

/-! ## The calls of a run -/

namespace Cursor

variable {σ : Type} {code : EmbeddedCode σ} {ok : σ → Prop} {strict : Prop} {base : List Event}
  {c d e : Cursor (σ × List Call)} {ms : List Marker} {P Q : Call → Prop}

/-- All calls made on the way from the one cursor to the other have the property. -/
def Calls (P : Call → Prop) (c d : Cursor (σ × List Call)) : Prop :=
  ∃ new, d.host.2 = new ++ c.host.2 ∧ ∀ r ∈ new, P r

theorem Calls.of_host_eq (h : d.host = c.host) : Calls P c d := ⟨[], by simp [h], by simp⟩

theorem Calls.trans (h : Calls P c d) (h' : Calls P d e) : Calls P c e := by
  obtain ⟨new, hd, hnew⟩ := h
  obtain ⟨new', he, hnew'⟩ := h'
  refine ⟨new' ++ new, by rw [he, hd, List.append_assoc], fun r hr => ?_⟩
  exact (List.mem_append.mp hr).elim (hnew' r) (hnew r)

theorem Calls.mono (hPQ : ∀ r, P r → Q r) (h : Calls P c d) : Calls Q c d := by
  obtain ⟨new, hd, hnew⟩ := h
  exact ⟨new, hd, fun r hr => hPQ r (hnew r hr)⟩

/-- One call, made where tokens are left. -/
theorem calls_logCall {run : Cursor σ → Cursor σ}
    (p : Path strict c.unlogged ms (run c.unlogged) ms) (ho : c.overrun = 0) (hne : c.ahead ≠ []) :
    Calls (fun r => r.unaccepted = c.held.length ∧ (r.unaccepted = 0 → r.Forward)) c
      (EmbeddedCode.logCall run c) := by
  refine ⟨[_], rfl, fun r hr => ?_⟩
  rw [List.mem_singleton.mp hr]
  exact ⟨rfl, fun hheld => p.position_lt (List.length_eq_zero_iff.mp hheld) ho hne⟩

theorem calls_block (hl : code.Stepwise strict ok) (h : Sound strict base ms c) (hne : c.ahead ≠ [])
    (hok : ok (code.logged.block c).host.1) :
    Calls (fun r => r.unaccepted = c.held.length ∧ (r.unaccepted = 0 → r.Forward)) c
      (code.logged.block c) := by
  rw [EmbeddedCode.block, EmbeddedCode.Respects.host_ensureProgress] at hok
  exact (calls_logCall (hl.block (h.withHost _) hok) h.overrun hne).trans
    (.of_host_eq (EmbeddedCode.Respects.host_ensureProgress ..))

theorem calls_comment (hl : code.Stepwise strict ok) (h : Sound strict base ms c)
    (hne : c.ahead ≠ []) (hok : ok (code.logged.comment c).host.1) :
    Calls (fun r => r.unaccepted = c.held.length ∧ (r.unaccepted = 0 → r.Forward)) c
      (code.logged.comment c) := by
  rw [EmbeddedCode.comment, EmbeddedCode.Respects.host_ensureProgress] at hok
  exact (calls_logCall (hl.comment (h.withHost _) hok) h.overrun hne).trans
    (.of_host_eq (EmbeddedCode.Respects.host_ensureProgress ..))

theorem forward_of_held (hh : c.held = []) (h : Calls
    (fun r => r.unaccepted = c.held.length ∧ (r.unaccepted = 0 → r.Forward)) c d) :
    Calls Call.Forward c d :=
  h.mono fun _ hr => hr.2 (by rw [hr.1, hh]; rfl)

/-! ### Scans -/

/-- A scan accepts or puts back what it has read before it hands over. -/
theorem calls_scanStep (hl : code.Stepwise strict ok) (h : Sound strict base ms c)
    (hne : c.ahead ≠ []) {place : LinePlace} (hok : ok (c.scanStep code.logged place).2.host.1) :
    Calls Call.Forward c (c.scanStep code.logged place).2 := by
  have hbefore := ((Reaches.refl h).beforeCode place).sound
  have hcomment := ((Reaches.refl h).beforeComment place).sound
  have hahead : (c.beforeComment place).ahead ≠ [] := by rwa [ahead_beforeComment]
  have ho := scanStep_outcome code.logged place c
  generalize c.scanStep code.logged place = r at ho hok ⊢
  cases ho with
  | lineEnding | newline | doubled | other => exact .of_host_eq (by simp)
  | code =>
    have hcall := forward_of_held (left_beforeCode place c).1
      (calls_block hl hbefore (ahead_beforeCode_ne_nil hne place) hok)
    exact (Calls.of_host_eq (host_beforeCode place c)).trans hcall
  | comment =>
    have hcall := forward_of_held (left_beforeComment place c).1
      (calls_comment hl hcomment hahead hok)
    exact (Calls.of_host_eq (host_beforeComment place c)).trans hcall
  | commentLine =>
    rw [host_endLine] at hok
    have hcall := forward_of_held (left_beforeComment place c).1
      (calls_comment hl hcomment hahead hok)
    exact ((Calls.of_host_eq (host_beforeComment place c)).trans hcall).trans
      (.of_host_eq (host_endLine _))

theorem calls_scanFrom (hl : code.Stepwise strict ok) (h : Sound strict base ms c)
    (stop : Cursor (σ × List Call) → Bool) {bound : Nat} {place : LinePlace}
    (hok : ok (scanFrom code.logged stop bound place c).host.1) :
    Calls Call.Forward c (scanFrom code.logged stop bound place c) := by
  induction bound generalizing place c with
  | zero => exact .of_host_eq rfl
  | succ bound ih =>
    unfold scanFrom at hok ⊢
    split
    · exact .of_host_eq (host_acceptRead c)
    · next hstop =>
      rw [if_neg hstop] at hok
      have hne : c.ahead ≠ [] := ahead_ne_nil_of_not_atEnd fun he => hstop (by simp [he])
      have hoks := hl.logged.respects.scanFrom stop bound _ _ hok
      have hstep := ((Reaches.refl h).scanStep hl.logged place hoks).sound
      exact (calls_scanStep hl h hne hoks).trans (ih hstep hok)

theorem calls_skipUntil (hl : code.Stepwise strict ok) (h : Sound strict base ms c)
    (stop : Cursor (σ × List Call) → Bool) (hok : ok (c.skipUntil code.logged stop).host.1) :
    Calls Call.Forward c (c.skipUntil code.logged stop) := calls_scanFrom hl h stop hok

/-! ### Attributes -/

theorem calls_attributeValue (hl : code.Stepwise strict ok) (h : Sound strict base ms c)
    (hok : ok (c.attributeValue code.logged).2.host.1) :
    Calls Call.Forward c (c.attributeValue code.logged).2 := by
  revert hok
  unfold attributeValue
  dsimp only
  split
  · intro hok
    rw [host_eat, host_complete] at hok
    have hscan := calls_skipUntil hl (Reaches.refl h).bump.start.sound (·.at? c.current) hok
    exact ((Calls.of_host_eq (by simp)).trans hscan).trans (.of_host_eq (by simp [skipTo]))
  · intro hok
    rw [host_complete] at hok
    have hscan := calls_skipUntil hl (Reaches.refl h).start.sound atBareValueEnd hok
    exact ((Calls.of_host_eq (by simp)).trans hscan).trans (.of_host_eq (by simp))

theorem calls_readAttribute (hl : code.Stepwise strict ok) (h : Sound strict base ms c)
    (hok : ok (c.readAttribute code.logged).2.host.1) :
    Calls Call.Forward c (c.readAttribute code.logged).2 := by
  have hname := (Reaches.refl h).start.bumpWhile (!·.kind.endsAttributeName)
  revert hok
  unfold readAttribute
  dsimp only
  generalize hd : c.start.2.bumpWhile (!·.kind.endsAttributeName) = d at hname ⊢
  have hhost : d.host = c.host := by rw [← hd, host_bumpWhile, host_start]
  generalize d.runLength (·.kind == .whitespace) 0 = blanks
  split
  · intro hok
    rw [host_complete] at hok
    have hvalue := calls_attributeValue hl
      ((hname.bumpN (blanks + 1)).bumpWhile (·.kind == .whitespace)).sound hok
    exact ((Calls.of_host_eq (by simpa using hhost)).trans hvalue).trans (.of_host_eq (by simp))
  · intro _
    exact .of_host_eq (by simpa using hhost)

/-- One round makes at most one call outside an attribute's value, with what is held then. -/
theorem calls_attributeRound (hl : code.Stepwise strict ok) (h : Sound strict base ms c)
    (hr : AttributeRound code.logged c d) (hok : ok d.host.1) :
    Calls (fun r => (r.unaccepted = 0 ∨ c.held = []) → r.Forward) c d := by
  have hf := ((Reaches.refl h).flush .literal).sound
  have hne : (c.flush .literal).ahead ≠ [] := by simpa using hr.ahead_ne_nil
  have hcall {r : Call} (hr : r.unaccepted = (c.flush .literal).held.length ∧
      (r.unaccepted = 0 → r.Forward)) (hc : r.unaccepted = 0 ∨ c.held = []) : r.Forward :=
    hr.2 (hc.elim id fun hh => by rw [hr.1, held_flush, hh]; rfl)
  cases hr with
  | token => exact .of_host_eq (host_bump c)
  | block =>
    exact (Calls.of_host_eq (host_flush c .literal)).trans
      ((calls_block hl hf hne hok).mono fun _ => hcall)
  | comment =>
    exact (Calls.of_host_eq (host_flush c .literal)).trans
      ((calls_comment hl hf hne hok).mono fun _ => hcall)
  | named => exact (calls_readAttribute hl h hok).mono fun _ hr _ => hr

/-- Where each round keeps an invariant, the calls of the loop are those of its rounds. -/
theorem calls_of_rounds {Inv : Cursor (σ × List Call) → Prop} (hl : code.Stepwise strict ok)
    (hround : ∀ {c d}, Inv c → AttributeRound code.logged (c.bumpWhile (·.kind.isTrivia)) d →
      ok d.host.1 → Inv d ∧ Calls P (c.bumpWhile (·.kind.isTrivia)) d) {bound : Nat}
    (hok : ok (attributesFrom code.logged bound c).2.host.1) (hc : Inv c) :
    Calls P c (attributesFrom code.logged bound c).2 := by
  induction bound generalizing c with
  | zero => exact .of_host_eq rfl
  | succ bound ih =>
    have hspacing : Calls P c (c.bumpWhile (·.kind.isTrivia)) := .of_host_eq (host_bumpWhile c _)
    rcases attributesFrom_succ code.logged bound c with hend | ⟨d, hd, hgo⟩
    · rw [hend]
      exact hspacing
    · rw [hgo] at hok ⊢
      obtain ⟨hinv, hcalls⟩ := hround hc hd (hl.logged.respects.attributesFrom bound d hok)
      exact (hspacing.trans hcalls).trans (ih hok hinv)

theorem calls_attributesFrom (hl : code.Stepwise strict ok) (h : Sound strict base ms c)
    {bound : Nat} (hok : ok (attributesFrom code.logged bound c).2.host.1) :
    Calls (fun r => r.unaccepted = 0 → r.Forward) c (attributesFrom code.logged bound c).2 := by
  have hround {c d : Cursor (σ × List Call)} (hc : Sound strict base ms c)
      (hr : AttributeRound code.logged (c.bumpWhile (·.kind.isTrivia)) d) (hok : ok d.host.1) :
      Sound strict base ms d ∧ Calls (fun r => r.unaccepted = 0 → r.Forward)
        (c.bumpWhile (·.kind.isTrivia)) d := by
    have hspacing := (Reaches.refl hc).bumpWhile (·.kind.isTrivia)
    exact ⟨(hr.reaches hl.logged hok hspacing).sound,
      (calls_attributeRound hl hspacing.sound hr hok).mono fun _ hr h0 => hr (.inl h0)⟩
  exact calls_of_rounds hl hround hok h

theorem calls_attributesFrom_of_tidy (hl : code.Tidy strict ok) (h : Sound strict base ms c)
    (hh : c.held = []) {bound : Nat} (hok : ok (attributesFrom code.logged bound c).2.host.1) :
    Calls Call.Forward c (attributesFrom code.logged bound c).2 := by
  have hround {c d : Cursor (σ × List Call)} (hc : Sound strict base ms c ∧ c.held = [])
      (hr : AttributeRound code.logged (c.bumpWhile (·.kind.isTrivia)) d) (hok : ok d.host.1) :
      (Sound strict base ms d ∧ d.held = []) ∧
        Calls Call.Forward (c.bumpWhile (·.kind.isTrivia)) d := by
    have hspacing := (Reaches.refl hc.1).bumpWhile (·.kind.isTrivia)
    have hheld : (c.bumpWhile (·.kind.isTrivia)).held = [] := held_bumpN hc.2 _
    exact ⟨⟨(hr.reaches hl.toStepwise.logged hok hspacing).sound,
        (hl.logged.unclaimed_lt hspacing.sound hheld hr hok).1⟩,
      (calls_attributeRound hl.toStepwise hspacing.sound hr hok).mono fun _ hr => hr (.inr hheld)⟩
  exact calls_of_rounds hl.toStepwise hround hok ⟨h, hh⟩

end Cursor

/-! ## Progress -/

section Progress

open Cursor

/-- A scan comes to an end, and each call made from it moves the cursor forward.
So does each call made in some rounds of the loop over attributes, unless an
earlier one has left something held. If none does, that loop comes to an end as
well, and every parse has a result. -/
theorem EmbeddedCode.Stepwise.calls_forward {σ : Type} {code : EmbeddedCode σ} {ok : σ → Prop}
    {strict : Prop} {base : List Event} {c : Cursor (σ × List Call)} {ms : List Marker}
    (hl : code.Stepwise strict ok) (h : Sound strict base ms c) :
    (∀ stop, ok (c.skipUntil code.logged stop).host.1 →
      (c.skipUntil code.logged stop).fault = none ∧
      Calls Call.Forward c (c.skipUntil code.logged stop)) ∧
    (∀ bound, ok (attributesFrom code.logged bound c).2.host.1 →
      Calls (fun r => r.unaccepted = 0 → r.Forward) c (attributesFrom code.logged bound c).2) ∧
    (code.Tidy strict ok →
      (c.held = [] → ok (c.attributes code.logged).2.host.1 →
        (c.attributes code.logged).2.fault = none ∧
        Calls Call.Forward c (c.attributes code.logged).2) ∧
      ∀ options host nesting? source, ok (Parser.finish options code host nesting? source).host →
        ∃ p, Parser.parse ⟨some options, code, host⟩ nesting? source = .ok p) := by
  refine ⟨fun stop hok => ⟨?_, calls_skipUntil hl h stop hok⟩,
    fun bound hok => calls_attributesFrom hl h hok,
    fun ht => ⟨fun hh hok => ⟨?_, calls_attributesFrom_of_tidy ht h hh hok⟩, ?_⟩⟩
  · exact ((Reaches.refl h).skipUntil hl.logged stop hok).sound.fault
  · exact ((Reaches.refl h).attributes ht.logged.lawful hh hok).sound.fault
  · intro options host nesting? source hok
    obtain ⟨p, hp, -⟩ := Parser.finish_covers ht.lawful options host nesting? source hok
    exact ⟨p, by rw [Parser.parse_eq, hp]; rfl⟩

/-- The script puts back at its second call what it has read at its first. Called from a scan it
moves forward at both, and implicit code also between attributes. -/
theorem EmbeddedCode.Stepwise.calls_forward_advance_rewind :
    let script : Script := ⟨[[.advance], [.rewind 0]], [], 0, 0, []⟩
    let code := EmbeddedCode.scripted script
    let c := (ofSource "<p>@a@b".toList {} (script, [])).start.2.start.2
    let d := (ofSource "@a x=@b @@".toList {} ((), [])).start.2.start.2
    (code.Stepwise False Script.Orderly ∧ Sound False [.placeholder, .placeholder] [] c ∧
      (c.skipUntil code.logged fun _ => false).host.1.Orderly ∧
      (c.skipUntil code.logged fun _ => false).fault = none ∧
      Calls Call.Forward c (c.skipUntil code.logged fun _ => false) ∧
      (c.skipUntil code.logged fun _ => false).host.2 = [⟨0, 5, 6⟩, ⟨0, 3, 4⟩]) ∧
    (EmbeddedCode.implicit : EmbeddedCode Unit).Tidy True (fun _ => True) ∧ d.held = [] ∧
      (d.attributes EmbeddedCode.implicit.logged).2.fault = none ∧
      Calls Call.Forward d (d.attributes EmbeddedCode.implicit.logged).2 ∧
      ∃ p, Parser.parse ⟨some {}, EmbeddedCode.implicit, ()⟩ none "<p @a x=@b @@>" = .ok p := by
  intro script code c d
  have hl : code.Stepwise False Script.Orderly := Script.stepwise_scripted _
  have h : Sound False [.placeholder, .placeholder] [] c := sound_ofSource ..
  have hscript : (c.skipUntil code.logged fun _ => false).host.1.Orderly := by decide +kernel
  have hscan := (hl.calls_forward h).1 _ hscript
  have hi : (EmbeddedCode.implicit : EmbeddedCode Unit).Tidy True fun _ => True := tidy_implicit ..
  have hd : Sound True [.placeholder, .placeholder] [] d := sound_ofSource ..
  have hheld : d.held = [] := by decide +kernel
  have hforward := (hi.toStepwise.calls_forward hd).2.2 hi
  have hattributes := hforward.1 hheld trivial
  exact ⟨⟨hl, h, hscript, hscan.1, hscan.2, by decide +kernel⟩,
    hi, hheld, hattributes.1, hattributes.2, hforward.2 {} () none _ trivial⟩

end Progress

/-! ## Calls that take turns

In the loop over attributes two calls can go back and forth for ever, because
nothing accepts in between what the first of them has read. -/

namespace EmbeddedCode

open Cursor

/-- Code that reads a token without accepting it at one call and puts it back at the next. -/
def seesaw : EmbeddedCode Bool where
  parseBlock c :=
    if c.host then (c.rewind 0).withHost false else c.advance.withHost true

theorem stepwise_seesaw (strict : Prop) : seesaw.Stepwise strict fun _ => True where
  respects := ⟨fun _ => id, fun h h' hu => h (h' hu), fun _ _ => trivial, fun _ _ => trivial⟩
  block {base ms c} _ _ := by
    simp only [seesaw]
    split
    · exact .tail (.tail .refl (.rewind 0 (Nat.zero_le _))) (.host false)
    · exact .tail (.tail .refl .advance) (.host true)
  comment h _ := (Reaches.refl h).inlineComment.path

/-- The cursor is on the first of two `@`, or on the second with the first held. -/
structure Rocking (c : Cursor Bool) : Prop where
  fault : c.fault = none
  place : ∃ a b rest, a.kind = .transition ∧ b.kind = .transition ∧
    (c.host = false ∧ c.held = [] ∧ c.ahead = a :: b :: rest ∨
      c.host = true ∧ c.held = [a] ∧ c.ahead = b :: rest)

variable {c : Cursor Bool}

theorem Rocking.ahead_cons (h : Rocking c) :
    ∃ t rest, c.ahead = t :: rest ∧ t.kind = .transition := by
  obtain ⟨-, a, b, rest, hka, hkb, ⟨-, -, ha⟩ | ⟨-, -, ha⟩⟩ := h
  · exact ⟨a, b :: rest, ha, hka⟩
  · exact ⟨b, rest, ha, hkb⟩

theorem Rocking.flush (h : Rocking c) (kind : Kind) : Rocking (c.flush kind) := by
  obtain ⟨hfault, hplace⟩ := h
  exact ⟨(fault_flush c kind).trans hfault,
    by simpa only [host_flush, held_flush, ahead_flush] using hplace⟩

/-- A call moves the cursor from the one `@` to the other. -/
theorem Rocking.block (h : Rocking c) : Rocking (seesaw.block c) := by
  obtain ⟨hfault, a, b, rest, hka, hkb, ⟨hhost, hh, ha⟩ | ⟨hhost, hh, ha⟩⟩ := h
  · have hcall : seesaw.parseBlock c = c.advance.withHost true := by simp [seesaw, hhost]
    have hmoved : (c.advance.withHost true).position ≠ c.position := by
      simp [withHost, advance, ha, hh, position, accepted]
    rw [EmbeddedCode.block, hcall, ensureProgress_of_ne hmoved]
    exact ⟨by simp [withHost, advance, ha, hfault], a, b, rest, hka, hkb,
      .inr ⟨rfl, by simp [withHost, advance, ha, hh], by simp [withHost, advance, ha]⟩⟩
  · have hcall : seesaw.parseBlock c = (c.rewind 0).withHost false := by simp [seesaw, hhost]
    have hmoved : ((c.rewind 0).withHost false).position ≠ c.position := by
      simp [withHost, rewind, hh, position, accepted]
      omega
    rw [EmbeddedCode.block, hcall, ensureProgress_of_ne hmoved]
    exact ⟨hfault, a, b, rest, hka, hkb, .inl ⟨rfl, by simp [withHost, rewind],
      by simp [withHost, rewind, ha, hh]⟩⟩

theorem Rocking.attributesFrom_succ (h : Rocking c) (bound : Nat) :
    attributesFrom seesaw (bound + 1) c =
      attributesFrom seesaw bound (seesaw.block (c.flush .literal)) := by
  obtain ⟨t, rest, ha, hk⟩ := h.ahead_cons
  have hspacing : c.bumpWhile (·.kind.isTrivia) = c :=
    bumpWhile_of_head (by simp [ha, hk, Kind.isTrivia])
  rw [attributesFrom, hspacing]
  simp only [current_cons ha, hk]

/-- However many rounds the loop may take, it does not come to an end. -/
theorem Rocking.stalled (h : Rocking c) (bound : Nat) :
    (attributesFrom seesaw bound c).2.fault = some .stalled := by
  induction bound generalizing c with
  | zero => simp [attributesFrom, fail, h.fault]
  | succ bound ih =>
    rw [h.attributesFrom_succ]
    exact ih (h.flush .literal).block

/-- The second call is made with the first `@` read and puts it back, so it leaves the cursor in front
of where it found it. Code that goes on like this keeps the loop going for ever. -/
theorem call_backward_between_attributes :
    let script : Script := ⟨[[.advance], [.rewind 0]], [], 0, 0, []⟩
    let parse := Parser.finish {} (EmbeddedCode.scripted script).logged (script, []) none "<p @@>"
    (parse.fault = none ∧ parse.host.1.Orderly ∧ ∃ r ∈ parse.host.2, r = ⟨1, 4, 3⟩ ∧ ¬ r.Forward) ∧
    seesaw.Stepwise True (fun _ => True) ∧
    ∃ c, Sound True [.placeholder, .placeholder] [] c ∧ c.ahead ≠ [] ∧
      ∀ bound, (attributesFrom seesaw bound c).2.fault = some .stalled := by
  refine ⟨by decide +kernel, stepwise_seesaw True,
    (ofSource "@@".toList {} false).start.2.start.2, sound_ofSource .., by decide +kernel, ?_⟩
  exact Rocking.stalled ⟨rfl, ⟨.transition, ['@']⟩, ⟨.transition, ['@']⟩, [], rfl, rfl,
    .inl ⟨rfl, rfl, by decide +kernel⟩⟩

end EmbeddedCode

end TemplateMarkup
