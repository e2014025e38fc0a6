import TemplateMarkup.Proofs.Lossless
import TemplateMarkup.Proofs.Offsets

/-! # Cursors laid out on tapes

A tape keeps a parse by indices. All tokens lie in one row and their offsets in another, and
three indices say how far tokens are flushed, accepted and read. A cursor has its tokens in
piles instead and counts its offsets when it is asked. What an operation does to a cursor it
does to the tape as well, and a tape that shows a cursor never reaches for an entry that is
not there. -/

namespace TemplateMarkup

/-! ## Rows of offsets -/

namespace Token

/-- The offset of each token in a row that begins at the offset `start`, and that of its end. -/
def offsetsFrom (start : Nat) : List Token → List Nat
  | [] => [start]
  | t :: ts => start :: offsetsFrom (start + t.width) ts

variable {t front back : Token} {before rest ts : List Token} {start i : Nat}

theorem length_offsetsFrom (start : Nat) (ts : List Token) :
    (offsetsFrom start ts).length = ts.length + 1 := by
  induction ts generalizing start with
  | nil => rfl
  | cons t ts ih => rw [offsetsFrom, List.length_cons, ih, List.length_cons]

theorem getElem?_offsetsFrom (h : i ≤ ts.length) :
    (offsetsFrom start ts)[i]? = some (start + widthOf (ts.take i)) := by
  induction ts generalizing start i with
  | nil =>
    obtain rfl : i = 0 := Nat.le_zero.mp h
    rfl
  | cons t ts ih =>
    cases i with
    | zero => rfl
    | succ i =>
      rw [offsetsFrom, List.getElem?_cons_succ, ih (Nat.le_of_succ_le_succ h), List.take_succ_cons,
        widthOf, Nat.add_assoc]

/-- Where a token comes apart, its second part stands at a new offset. -/
theorem offsetsFrom_split (hwidth : front.width + back.width = t.width) :
    (offsetsFrom start (before ++ t :: rest)).insertIdx (before.length + 1)
        (start + widthOf before + front.width) =
      offsetsFrom start (before ++ front :: back :: rest) := by
  induction before generalizing start with
  | nil => simp [offsetsFrom, widthOf, ← hwidth, Nat.add_assoc]
  | cons u before ih =>
    have hstart : start + widthOf (u :: before) = start + u.width + widthOf before := by
      rw [widthOf, Nat.add_assoc]
    rw [hstart, List.cons_append, List.cons_append, offsetsFrom, offsetsFrom, List.length_cons,
      List.insertIdx_succ_cons, ih]

/-- The two parts of a token take its place. -/
theorem insertIdx_set_split (before rest : List Token) (t front back : Token) :
    ((before ++ t :: rest).set before.length front).insertIdx (before.length + 1) back =
      before ++ front :: back :: rest := by
  induction before with
  | nil => rfl
  | cons u before ih => simpa using ih

end Token

/-- A parse in progress, kept by indices. -/
structure Tape where
  tokens : List Token
  /-- The offset of each token, and that of the end of the source. -/
  offsets : List Nat
  /-- The index of the next token. -/
  position : Nat := 0
  /-- Tokens in front of this index are claimed for the tree. -/
  accepted : Nat := 0
  /-- Tokens in front of this index are leaves already. -/
  emitted : Nat := 0
  events : List Event := []
  deriving DecidableEq, Repr

namespace Tape

/-! ## Operations

An operation has no result if it needs an entry that is not there. -/

def ofSource (source : List Char) : Tape :=
  { tokens := Token.lex source, offsets := Token.offsetsFrom 0 (Token.lex source) }

def bump (t : Tape) : Tape :=
  if t.position < t.tokens.length then
    { t with position := t.position + 1, accepted := t.position + 1 }
  else t

def eat (t : Tape) (kind : Kind) : Tape :=
  if Token.kindAt t.tokens t.position = kind then t.bump else t

def advance (t : Tape) : Tape :=
  if t.position < t.tokens.length then { t with position := t.position + 1 } else t

def acceptRead (t : Tape) : Tape := { t with accepted := t.position }

def rewind (t : Tape) (index : Nat) : Tape := { t with position := max index t.accepted }

/-- Splits the next token at a byte, if a character boundary lies there and inside the token. Both
rows have one more entry then. -/
def split? (t : Tape) (byte : Nat) : Option Tape :=
  match t.tokens[t.position]? with
  | none => some t
  | some u =>
    match Text.charCount? byte u.text with
    | none => some t
    | some count =>
      if 0 < count ∧ count < u.text.length then do
        let start ← t.offsets[t.position]?
        let front : Token := ⟨u.kind, u.text.take count⟩
        let back : Token := ⟨u.kind, u.text.drop count⟩
        some { t with
          tokens := (t.tokens.set t.position front).insertIdx (t.position + 1) back
          offsets := t.offsets.insertIdx (t.position + 1) (start + front.width) }
      else some t

def flushRaw? (t : Tape) : Option Tape := do
  let leaves ← (List.range' t.emitted (t.accepted - t.emitted)).mapM (t.tokens[·]?)
  some { t with
    emitted := t.accepted
    events := t.events ++ leaves.map fun u => .token u.kind 1 }

def flush? (t : Tape) (kind : Kind) : Option Tape :=
  if t.emitted < t.accepted then do
    let t ← ({ t with events := t.events ++ [.start kind] } : Tape).flushRaw?
    some { t with events := t.events ++ [.finish] }
  else some t

def missing? (t : Tape) (kind : Kind) : Option Tape := do
  let t ← t.flush? .literal
  some { t with events := t.events ++ [.token kind 0] }

def start? (t : Tape) : Option (Marker × Tape) := do
  let t ← t.flush? .literal
  some (⟨t.events.length⟩, { t with events := t.events ++ [.placeholder] })

def complete? (t : Tape) (m : Marker) (kind : Kind) : Option Tape := do
  let t ← t.flush? .literal
  if t.events[m.index]? = some .placeholder then
    some { t with events := t.events.set m.index (.start kind) ++ [.finish] }
  else none

def abandon? (t : Tape) (m : Marker) : Option Tape :=
  if t.events = [] then none
  else if m.index = t.events.length - 1 then
    if t.events[m.index]? = some .placeholder then some { t with events := t.events.dropLast }
    else none
  else some t

end Tape

namespace Cursor

variable {σ : Type} {c : Cursor σ}

/-- The cursor, laid out by indices. -/
def tape (c : Cursor σ) : Tape where
  tokens := c.tokens
  offsets := Token.offsetsFrom 0 c.tokens
  position := c.position
  accepted := c.accepted
  emitted := c.emitted
  events := c.events.toList

theorem tape_ofSource (source : List Char) (context : Context) (host : σ) :
    (ofSource source context host).tape = Tape.ofSource source := by
  rw [tape, tokens_ofSource]
  rfl

/-! ## What lies at an index -/

/-- The tokens read are those in front of the position. -/
theorem length_read (ho : c.overrun = 0) : (c.claimed ++ c.held.reverse).length = c.position := by
  rw [position_eq, ho, List.length_append, List.length_reverse, Nat.add_zero]

/-- The next token lies behind those read. -/
theorem getElem?_tokens_position (ho : c.overrun = 0) (n : Nat) :
    c.tokens[c.position + n]? = c.ahead[n]? := by
  rw [tokens_eq, ← length_read ho, List.getElem?_append_right (Nat.le_add_right _ _),
    Nat.add_sub_cancel_left]

theorem kindAt_tokens_position (ho : c.overrun = 0) (n : Nat) :
    Token.kindAt c.tokens (c.position + n) = c.nth n := by
  rw [Token.kindAt, getElem?_tokens_position ho, nth, Token.kindAt]

theorem position_lt_iff (ho : c.overrun = 0) :
    c.tape.position < c.tape.tokens.length ↔ c.ahead ≠ [] := by
  simp only [tape, Sound.length_tokens, List.length_append, List.length_reverse, position, ho,
    ← List.length_pos_iff]
  omega

/-- The row of offsets says where each token ahead begins, and for all behind the last where the
source ends. -/
theorem offsets_nthStart (ho : c.overrun = 0) (n : Nat) :
    c.tape.offsets[min (c.tape.position + n) c.tape.tokens.length]? = some (c.nthStart n) := by
  have htake : c.tokens.take (min (c.position + n) c.tokens.length) =
      c.claimed ++ c.held.reverse ++ c.ahead.take n := by
    rw [← List.take_eq_take_min, tokens_eq, ← length_read ho, List.take_length_add_append]
  simp only [tape]
  rw [Token.getElem?_offsetsFrom (Nat.min_le_right _ _), htake]
  simp only [claimed, Token.widthOf_append, Token.widthOf_reverse, nthStart, Nat.zero_add]

/-! ## Reading and accepting -/

/-- Where no token is split, only the indices and the events can be others. -/
theorem tape_of_tokens {d : Cursor σ} (htokens : d.tokens = c.tokens) :
    d.tape = { c.tape with
      position := d.position
      accepted := d.accepted
      emitted := d.emitted
      events := d.events.toList } := by
  simp only [tape, htokens]

theorem tape_bump (ho : c.overrun = 0) : c.bump.tape = c.tape.bump := by
  cases ha : c.ahead with
  | nil => rw [bump_nil ha, Tape.bump, if_neg (by simp [position_lt_iff ho, ha])]
  | cons t rest =>
    have hne : c.ahead ≠ [] := ha ▸ List.cons_ne_nil t rest
    have hposition := position_bump hne
    have haccepted : c.bump.accepted = c.position + 1 := by
      rw [← hposition, position, held_bump_of_ne_nil hne]
      simp [bump, ha, ho]
    rw [Tape.bump, if_pos ((position_lt_iff ho).mpr hne), tape_of_tokens (tokens_bump c),
      hposition, haccepted]
    simp [bump, ha, tape, emitted]

theorem tape_eat (ho : c.overrun = 0) (kind : Kind) : (c.eat kind).2.tape = c.tape.eat kind := by
  have hkind : Token.kindAt c.tape.tokens c.tape.position = c.current :=
    kindAt_tokens_position ho 0
  rw [Tape.eat, hkind, eat, at?]
  by_cases h : c.current = kind
  · simp [h, tape_bump ho]
  · simp [h]

theorem tape_advance (ho : c.overrun = 0) : c.advance.tape = c.tape.advance := by
  cases ha : c.ahead with
  | nil => simp [advance, ha, Tape.advance, position_lt_iff ho]
  | cons t rest =>
    have hlt := (position_lt_iff ho).mpr (ha ▸ List.cons_ne_nil t rest)
    rw [Tape.advance, if_pos hlt, tape_of_tokens (tokens_advance c)]
    simp [advance, ha, tape, position, accepted, emitted, ho, Nat.add_assoc]

theorem tape_acceptRead (ho : c.overrun = 0) : c.acceptRead.tape = c.tape.acceptRead := by
  rw [tape_of_tokens (tokens_acceptRead c), Tape.acceptRead]
  simp [acceptRead, ho, tape, position, accepted, emitted]
  omega

theorem tape_rewind (index : Nat) : (c.rewind index).tape = c.tape.rewind index := by
  have hposition : (c.rewind index).position = max index c.accepted := by
    have haccepted : (c.rewind index).accepted = c.accepted := rfl
    rw [position, haccepted]
    simp only [rewind, List.length_reverse, List.length_take, List.length_append]
    omega
  rw [tape_of_tokens (tokens_rewind c index), hposition]
  rfl

/-! ## Splitting -/

/-- The parts of a token stand in both rows, the second as far on as the first is wide. -/
theorem tape_parts (ho : c.overrun = 0) {t front back : Token} {rest : List Token}
    (ha : c.ahead = t :: rest) (hwidth : front.width + back.width = t.width) :
    ∃ start, c.tape.offsets[c.tape.position]? = some start ∧
      tape { c with ahead := front :: back :: rest } = { c.tape with
        tokens := (c.tape.tokens.set c.tape.position front).insertIdx (c.tape.position + 1) back
        offsets := c.tape.offsets.insertIdx (c.tape.position + 1) (start + front.width) } := by
  have hline : c.tokens = c.claimed ++ c.held.reverse ++ t :: rest := by rw [tokens_eq, ha]
  have hlength := length_read ho
  have htokens : (c.tokens.set c.position front).insertIdx (c.position + 1) back =
      c.claimed ++ c.held.reverse ++ front :: back :: rest := by
    rw [hline, ← hlength, Token.insertIdx_set_split]
  refine ⟨0 + Token.widthOf (c.claimed ++ c.held.reverse), ?_, ?_⟩
  · simp only [tape]
    rw [hline, ← hlength, Token.getElem?_offsetsFrom (by simp), List.take_left]
  · have hoffsets : (Token.offsetsFrom 0 c.tokens).insertIdx (c.position + 1)
        (0 + Token.widthOf (c.claimed ++ c.held.reverse) + front.width) =
        Token.offsetsFrom 0 (c.claimed ++ c.held.reverse ++ front :: back :: rest) := by
      rw [hline, ← hlength, Token.offsetsFrom_split hwidth]
    simp only [tape, htokens, hoffsets]
    rfl

theorem tape_split (ho : c.overrun = 0) (byte : Nat) :
    c.tape.split? byte = some ((c.split? byte).getD c).tape := by
  have hnext : c.tape.tokens[c.tape.position]? = c.ahead[0]? := getElem?_tokens_position ho 0
  rw [Tape.split?, hnext, split?]
  cases ha : c.ahead with
  | nil => cases byte <;> simp [currentText, nthText, Token.textAt, ha, Text.charCount?]
  | cons t rest =>
    simp only [currentText_cons ha, List.getElem?_cons_zero]
    cases Text.charCount? byte t.text with
    | none => rfl
    | some count =>
      by_cases hin : 0 < count ∧ count < t.text.length
      · have hwidth : Token.width ⟨t.kind, t.text.take count⟩ +
            Token.width ⟨t.kind, t.text.drop count⟩ = t.width := by
          rw [Token.width, Token.width, ← Text.width_append, List.take_append_drop, Token.width]
        obtain ⟨start, hstart, hparts⟩ := tape_parts ho ha hwidth
        simp only [if_pos hin, splitAfter, ha, Option.getD_some, hstart, hparts,
          Option.bind_eq_bind, Option.bind_some]
      · simp only [if_neg hin, Option.getD_none]

/-! ## Events -/

theorem mapM_getElem? {α : Type} {l : List α} {i n : Nat} (h : i + n ≤ l.length) :
    (List.range' i n).mapM (l[·]?) = some ((l.drop i).take n) := by
  induction n generalizing i with
  | zero => simp
  | succ n ih =>
    have hi : i < l.length := by omega
    rw [List.range'_succ, List.mapM_cons, ih (by omega), List.getElem?_eq_getElem hi,
      List.drop_eq_getElem_cons hi]
    rfl

theorem tape_flushRaw (c : Cursor σ) : c.tape.flushRaw? = some c.flushRaw.tape := by
  have hmapM : (List.range' c.tape.emitted (c.tape.accepted - c.tape.emitted)).mapM
      (c.tape.tokens[·]?) = some c.pending.reverse := by
    have hpending : c.accepted - c.emitted = c.pending.length := Nat.add_sub_cancel_left ..
    have hle : c.emitted + c.pending.length ≤ c.tokens.length := by
      rw [Sound.length_tokens]
      exact Nat.le_add_right _ _
    simp only [tape, hpending, mapM_getElem? hle]
    simp [tokens, emitted]
  rw [Tape.flushRaw?, hmapM, tape_of_tokens (tokens_flushRaw c)]
  simp [flushRaw, tape, position, accepted, emitted]
  omega

theorem emitted_lt_accepted_iff : c.tape.emitted < c.tape.accepted ↔ c.pending ≠ [] := by
  simp only [tape, emitted, accepted, ← List.length_pos_iff]
  omega

theorem tape_flush (c : Cursor σ) (kind : Kind) :
    c.tape.flush? kind = some (c.flush kind).tape := by
  by_cases hp : c.pending = []
  · rw [Tape.flush?, if_neg (by simp [emitted_lt_accepted_iff, hp]), flush_of_pending hp]
  · have hstarted : ({ c.tape with events := c.tape.events ++ [.start kind] } : Tape) =
        tape { c with events := c.events.push (.start kind) } := by
      simp only [tape, Array.toList_push]
      rfl
    rw [Tape.flush?, if_pos (emitted_lt_accepted_iff.mpr hp), hstarted, tape_flushRaw, flush,
      if_neg (by simp [hp])]
    simp only [Option.bind_eq_bind, Option.bind_some, tape, Array.toList_push]
    rfl

theorem tape_missing (c : Cursor σ) (kind : Kind) :
    c.tape.missing? kind = some (c.missing kind).tape := by
  rw [Tape.missing?, tape_flush, missing]
  simp only [Option.bind_eq_bind, Option.bind_some, tape, Array.toList_push]
  rfl

theorem tape_start (c : Cursor σ) : c.tape.start? = some (c.start.1, c.start.2.tape) := by
  rw [Tape.start?, tape_flush, start]
  simp only [Option.bind_eq_bind, Option.bind_some, tape, Array.toList_push, Array.length_toList]
  rfl

theorem tape_complete {m : Marker} (h : (c.flush .literal).events[m.index]? = some .placeholder)
    (kind : Kind) : c.tape.complete? m kind = some (c.complete m kind).tape := by
  have hget : (c.flush .literal).tape.events[m.index]? = some .placeholder := by
    rw [← h, tape, Array.getElem?_toList]
  rw [Tape.complete?, tape_flush, complete_eq h, Option.bind_eq_bind, Option.bind_some, if_pos hget]
  simp only [tape, Array.toList_push, Array.toList_setIfInBounds]
  rfl

theorem tape_abandon {m : Marker} (h : c.events[m.index]? = some .placeholder) :
    c.tape.abandon? m = some (c.abandon m).tape := by
  have hget : c.tape.events[m.index]? = some .placeholder := by
    rw [← h, tape, Array.getElem?_toList]
  have hne : c.tape.events ≠ [] := by
    intro hnil
    rw [hnil] at hget
    cases hget
  have hlast : m.index = c.tape.events.length - 1 ↔ m.index + 1 = c.events.size := by
    have hpos := List.length_pos_iff.mpr hne
    rw [show c.tape.events.length = c.events.size from Array.length_toList] at hpos ⊢
    omega
  rw [Tape.abandon?, if_neg hne, abandon, hget, h]
  by_cases hm : m.index + 1 = c.events.size
  · rw [if_pos (hlast.mpr hm), if_pos hm]
    simp only [if_true, tape, Array.toList_pop]
    rfl
  · rw [if_neg fun hlength => hm (hlast.mp hlength), if_neg hm]

end Cursor

end TemplateMarkup
