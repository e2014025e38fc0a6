import Mathlib.Tactic.SplitIfs
import TemplateMarkup.Toml.Quoted

/-! # Strings read back as they were written

`Written` says of a text how each of its characters stands between the quotes: as a quote
that does not end the string, or as some characters that read back as this one. The
writer's choice of a style is such that one of the two holds of every character, and the
reader takes in any text that is written like this. -/

namespace TemplateMarkup.Toml

/-! ## Reading what stands between the quotes -/

namespace QuoteStyle

/-- How many quotes in a row may belong to the text. -/
def quotesInside (style : QuoteStyle) : Nat := if style.multiline then 2 else 0

end QuoteStyle

/-- The characters at the front read as this text, whatever follows them. -/
def ReadsAs (style : QuoteStyle) (written text : List Char) : Prop :=
  ∀ rest, readBody style .plain (written ++ rest) =
    (readBody style .plain rest).map fun (body, rest) => (text ++ body, rest)

/-- How a text is written behind so many quotes of its own. No quote and no line ending is written
but for one of the text. -/
inductive Written (style : QuoteStyle) : Nat → List Char → List Char → Prop
  | nil {run : Nat} : Written style run [] []
  | quote {run : Nat} {text written : List Char} : run < style.quotesInside →
      Written style (run + 1) text written →
      Written style run (style.quote :: text) (style.quote :: written)
  | unit {run : Nat} {c d : Char} {more text written : List Char} :
      ReadsAs style (d :: more) [c] → d ≠ style.quote → d ≠ '\r' → (d = '\n' → c = '\n') →
      Written style 0 text written → Written style run (c :: text) (d :: more ++ written)

variable {style : QuoteStyle} {text written rest : List Char} {run : Nat} {c : Char}

theorem readBody_emit {state next : QuoteState} {emitted : List Char}
    (h : state.next style c rest = .emit emitted next) : readBody style state (c :: rest) =
      (readBody style next rest).map fun (body, rest) => (emitted ++ body, rest) := by
  rw [readBody, h]

/-- A character that adds nothing only changes the state. -/
theorem readBody_silent {state next : QuoteState} (h : state.next style c rest = .emit [] next) :
    readBody style state (c :: rest) = readBody style next rest := by
  rw [readBody_emit h]
  simp

theorem readBody_close {state : QuoteState} {last after : List Char}
    (h : state.next style c rest = .close last after) :
    readBody style state (c :: rest) = some (last, after) := by
  rw [readBody, h]

/-- A quote that is followed by at most one more stands for itself. -/
theorem readBody_quote (hm : style.multiline = true)
    (h : ((rest.take 4).takeWhile (· == style.quote)).length < 2) :
    readBody style .plain (style.quote :: rest) =
      (readBody style .plain rest).map fun (body, rest) => (style.quote :: body, rest) := by
  have hemit : QuoteState.plain.next style style.quote rest = .emit [style.quote] .plain := by
    simp only [QuoteState.next, QuoteAction.ofPlain, QuoteAction.ofQuote, hm]
    simp [h]
  exact readBody_emit hemit

/-- Up to two quotes in front of the closing three belong to the text. -/
theorem readBody_last (hm : style.multiline = true) (hrest : rest.head? ≠ some style.quote)
    (count : Nat) (hcount : count ≤ 2) :
    readBody style .plain (List.replicate count style.quote ++ style.delimiter ++ rest) =
      some (List.replicate count style.quote, rest) := by
  have hdelimiter : style.delimiter = List.replicate 3 style.quote := by
    simp [QuoteStyle.delimiter, hm]
  have hnext : rest.takeWhile (· == style.quote) = [] := by
    cases rest with
    | nil => rfl
    | cons d rest => exact List.takeWhile_cons_of_neg (by simpa using hrest)
  have hrun : ((List.replicate (count + 2) style.quote ++ rest).take 4).takeWhile
      (· == style.quote) = List.replicate (count + 2) style.quote := by
    rw [← List.take_takeWhile, List.takeWhile_append_of_pos (by simp), hnext, List.append_nil,
      List.take_of_length_le (by simp; omega)]
  have hall : List.replicate count style.quote ++ List.replicate 3 style.quote ++ rest =
      style.quote :: (List.replicate (count + 2) style.quote ++ rest) := by
    rw [List.replicate_append_replicate]
    rfl
  rw [hdelimiter, hall]
  refine readBody_close ?_
  simp only [QuoteState.next, QuoteAction.ofPlain, QuoteAction.ofQuote, hm, hrun]
  simp

/-- A text that is written like this reads back, and its closing quotes end it. -/
theorem Written.readBody (h : Written style run text written)
    (hrest : rest.head? ≠ some style.quote) :
    readBody style .plain (written ++ style.delimiter ++ rest) = some (text, rest) := by
  induction h with
  | nil =>
    cases hm : style.multiline with
    | true => exact readBody_last hm hrest 0 (by decide)
    | false =>
      have hdelimiter : style.delimiter = [style.quote] := by simp [QuoteStyle.delimiter, hm]
      rw [hdelimiter]
      exact readBody_close (by simp [QuoteState.next, QuoteAction.ofPlain, QuoteAction.ofQuote, hm])
  | @unit run c d more text written hreads _ _ _ _ ih =>
    rw [List.append_assoc, List.append_assoc, hreads, ← List.append_assoc, ih]
    rfl
  | @quote run text written hrun hwritten ih =>
    have hm : style.multiline = true := by
      cases hm : style.multiline with
      | true => rfl
      | false => simp [QuoteStyle.quotesInside, hm] at hrun
    have hinside : style.quotesInside = 2 := by simp [QuoteStyle.quotesInside, hm]
    -- What follows the quote decides whether it stands at the end of the text.
    cases hwritten with
    | nil => exact readBody_last hm hrest 1 (by decide)
    | unit _ hne =>
      rw [List.cons_append, List.cons_append, readBody_quote hm (by simp [hne]), ih]
      rfl
    | @quote _ text written hrun' hwritten =>
      cases hwritten with
      | nil => exact readBody_last hm hrest 2 (by decide)
      | unit _ hne =>
        rw [List.cons_append, List.cons_append, readBody_quote hm (by simp [hne]), ih]
        rfl
      | quote hrun'' => omega

/-! ## How single characters are written -/

theorem readsAs_plain (hquote : c ≠ style.quote) (hescape : style.escapes = true → c ≠ '\\')
    (hline : c = '\n' → style.multiline = true) (hcontrol : isBareControl c = false) :
    ReadsAs style [c] [c] := by
  intro rest
  refine readBody_emit ?_
  have hreturn : c ≠ '\r' := by
    rintro rfl
    exact absurd hcontrol (by decide)
  have hslash : ¬(c = '\\' ∧ style.escapes = true) := fun h => hescape h.2 h.1
  by_cases hnewline : c = '\n'
  · obtain rfl := hnewline
    simp [QuoteState.next, QuoteAction.ofPlain, hquote, hline]
  · simp [QuoteState.next, QuoteAction.ofPlain, hquote, hslash, hnewline, hreturn, hcontrol]

/-- In a style with escapes a backslash begins one. -/
theorem readBody_backslash (hquote : style.quote = '"') (hescapes : style.escapes = true) :
    readBody style .plain ('\\' :: rest) = readBody style .escape rest :=
  readBody_silent (by simp [QuoteState.next, QuoteAction.ofPlain, hquote, hescapes])

/-- A backslash and a character behind it that stands for another. -/
theorem readsAs_escape {e : Char} (hquote : style.quote = '"') (hescapes : style.escapes = true)
    (h : ∀ rest, QuoteAction.ofEscape style e rest = .emit [c] .plain) :
    ReadsAs style ['\\', e] [c] := by
  intro rest
  exact (readBody_backslash hquote hescapes).trans (readBody_emit (h rest))

theorem hexDigit?_upperHexDigit : ∀ {d : Nat}, d < 16 → hexDigit? (upperHexDigit d) = some d := by
  decide

/-- A digit of a code point, of which more are to come. -/
theorem readBody_digit {n digits value : Nat} (hdigits : 1 < digits) :
    readBody style (.code digits value) (upperHexDigit (n % 16) :: rest) =
      readBody style (.code (digits - 1) (value * 16 + n % 16)) rest := by
  have hdigit := hexDigit?_upperHexDigit (Nat.mod_lt n (by decide : 16 > 0))
  exact readBody_silent (by simp [QuoteState.next, QuoteAction.ofDigit, hdigit, hdigits])

/-- A character that four digits can write reads back from them. -/
theorem readsAs_code (hquote : style.quote = '"') (hescapes : style.escapes = true)
    (hc : c.toNat < 65536) : ReadsAs style (escapeByCode c) [c] := by
  intro rest
  have hwritten : escapeByCode c ++ rest = '\\' :: 'u' :: upperHexDigit (c.toNat / 4096 % 16) ::
      upperHexDigit (c.toNat / 256 % 16) :: upperHexDigit (c.toNat / 16 % 16) ::
      upperHexDigit (c.toNat % 16) :: rest := rfl
  have hlast := hexDigit?_upperHexDigit (Nat.mod_lt c.toNat (by decide : 16 > 0))
  have hvalue : ((c.toNat / 4096 % 16 * 16 + c.toNat / 256 % 16) * 16 + c.toNat / 16 % 16) * 16 +
      c.toNat % 16 = c.toNat := by omega
  have hbegin : QuoteState.escape.next style 'u' (upperHexDigit (c.toNat / 4096 % 16) ::
      upperHexDigit (c.toNat / 256 % 16) :: upperHexDigit (c.toNat / 16 % 16) ::
      upperHexDigit (c.toNat % 16) :: rest) = .emit [] (.code 4 0) := rfl
  rw [hwritten, readBody_backslash hquote hescapes, readBody_silent hbegin,
    readBody_digit (by decide), readBody_digit (by decide), readBody_digit (by decide)]
  refine readBody_emit ?_
  have hvalid : c.toNat.isValidChar := c.valid
  simp [QuoteState.next, QuoteAction.ofDigit, hlast, hvalue, hvalid, Char.ofNat_toNat]

/-! ## What the writer writes -/

theorem isBareControl_toNat (h : isBareControl c = true) : c.toNat < 65536 := by
  simp only [isBareControl, Bool.or_eq_true, Bool.and_eq_true, decide_eq_true_eq,
    beq_iff_eq] at h
  omega

/-- A character is written as a quote that may stand for itself, or as what reads back as it. -/
theorem writeChar_cases (hquote : style.quote = '"') (hescapes : style.escapes = true) (run : Nat)
    (c : Char) :
    c = '"' ∧ run < style.quotesInside ∧ writeChar style run c = ['"'] ∨
      ∃ d more, writeChar style run c = d :: more ∧ ReadsAs style (d :: more) [c] ∧
        d ≠ '"' ∧ d ≠ '\r' ∧ (d = '\n' → c = '\n') := by
  have hescape {e c : Char} (he : ∀ rest, QuoteAction.ofEscape style e rest = .emit [c] .plain) :
      ∃ d more, ['\\', e] = d :: more ∧ ReadsAs style (d :: more) [c] ∧
        d ≠ '"' ∧ d ≠ '\r' ∧ (d = '\n' → c = '\n') :=
    ⟨'\\', [e], rfl, readsAs_escape hquote hescapes he, by decide, by decide,
      fun h => absurd h (by decide)⟩
  unfold writeChar
  split
  case h_3 =>
    split
    · next hm =>
      exact .inr ⟨'\n', [], rfl, readsAs_plain (by rw [hquote]; decide) (fun _ => by decide)
        (fun _ => hm) (by decide), by decide, by decide, fun _ => rfl⟩
    · exact .inr (hescape fun _ => rfl)
  case h_6 =>
    by_cases hrun : run < style.quotesInside
    · exact .inl ⟨rfl, hrun, if_pos hrun⟩
    · obtain ⟨d, more, hwritten, hrest⟩ := hescape (e := '"') (c := '"') fun _ => rfl
      exact .inr ⟨d, more, (if_neg hrun).trans hwritten, hrest⟩
  case h_8 _ _ hline _ _ hmark hslash =>
    split
    · next hcontrol =>
      exact .inr ⟨'\\', _, rfl, readsAs_code hquote hescapes (isBareControl_toNat hcontrol),
        by decide, by decide, fun h => absurd h (by decide)⟩
    · next hcontrol =>
      have hplain : ReadsAs style [c] [c] := readsAs_plain (by rw [hquote]; exact hmark)
        (fun _ => hslash) (fun h => absurd h hline) (by simpa using hcontrol)
      refine .inr ⟨c, [], rfl, hplain, hmark, ?_, fun h => h⟩
      rintro rfl
      exact hcontrol (by decide)
  all_goals exact .inr (hescape fun _ => rfl)

/-- A style whose quotes are quotation marks escapes what cannot stand for itself. -/
theorem written_escaped (hquote : style.quote = '"') (hescapes : style.escapes = true)
    (text : List Char) (run : Nat) : Written style run text (writeEscaped style run text) := by
  induction text generalizing run with
  | nil => exact .nil
  | cons c text ih =>
    rw [writeEscaped]
    rcases writeChar_cases hquote hescapes run c with
      ⟨rfl, hrun, hwritten⟩ | ⟨d, more, hwritten, hreads, hne, hreturn, hline⟩
    · rw [hwritten]
      have hmark := Written.quote hrun (ih (run + 1))
      rwa [hquote] at hmark
    · have hmark : d :: more ≠ ['"'] := by simp [hne]
      rw [hwritten, if_neg hmark]
      exact .unit hreads (by rwa [hquote]) hreturn hline (ih 0)

/-- No more than so many of the character in a row, when `run` of them stand in front. -/
def RunsWithin (c : Char) (most : Nat) : Nat → List Char → Prop
  | _, [] => True
  | run, d :: rest => if d = c then run < most ∧ RunsWithin c most (run + 1) rest
    else RunsWithin c most 0 rest

/-- One step of the search for the longest run. -/
def countRun (c : Char) (counts : Nat × Nat) (d : Char) : Nat × Nat :=
  let run := if d = c then counts.1 + 1 else 0
  (run, max counts.2 run)

theorem le_countRun (c : Char) (text : List Char) (run most : Nat) :
    most ≤ (text.foldl (countRun c) (run, most)).2 := by
  induction text generalizing run most with
  | nil => exact Nat.le_refl most
  | cons d text ih => exact Nat.le_trans (Nat.le_max_left most _) (ih _ _)

theorem runsWithin_of_countRun {c : Char} {most bound : Nat}
    (h : (text.foldl (countRun c) (run, most)).2 ≤ bound) : RunsWithin c bound run text := by
  induction text generalizing run most with
  | nil => trivial
  | cons d text ih =>
    have hrest := ih h
    have hrun : (countRun c (run, most) d).2 ≤ bound := Nat.le_trans (le_countRun c text _ _) h
    unfold RunsWithin
    split
    · next heq =>
      simp only [countRun, heq, if_true] at hrun hrest
      exact ⟨by omega, hrest⟩
    · next hne =>
      simpa only [countRun, hne, if_false] using hrest

theorem runsWithin_of_longestRun {c : Char} {most : Nat} (h : longestRun c text ≤ most) :
    RunsWithin c most 0 text := by
  have h : (text.foldl (countRun c) (0, 0)).2 ≤ most := h
  exact runsWithin_of_countRun h

/-- A style without escapes writes the text as it is. -/
theorem written_verbatim (hescapes : style.escapes = false)
    (hruns : RunsWithin style.quote style.quotesInside run text)
    (hcontrols : ∀ c ∈ text, isBareControl c = false)
    (hlines : '\n' ∈ text → style.multiline = true) : Written style run text text := by
  induction text generalizing run with
  | nil => exact .nil
  | cons c text ih =>
    have hcontrols' : ∀ d ∈ text, isBareControl d = false :=
      fun d hd => hcontrols d (List.mem_cons_of_mem c hd)
    have hlines' : '\n' ∈ text → style.multiline = true :=
      fun h => hlines (List.mem_cons_of_mem c h)
    unfold RunsWithin at hruns
    split at hruns
    · next heq =>
      rw [heq]
      exact .quote hruns.1 (ih hruns.2 hcontrols' hlines')
    · next hne =>
      have hcontrol := hcontrols c List.mem_cons_self
      have hplain := readsAs_plain hne (fun h => by simp [hescapes] at h)
        (fun h => hlines (h ▸ List.mem_cons_self)) hcontrol
      refine .unit hplain hne ?_ (fun h => h) (ih hruns hcontrols' hlines')
      rintro rfl
      exact absurd hcontrol (by decide)

/-! ## Whole strings -/

namespace QuoteStyle

/-- What stands between the quotes, the line ending in front apart. -/
def body (style : QuoteStyle) (text : List Char) : List Char :=
  if style.escapes then writeEscaped style 0 text else text

theorem forText_mem (text : List Char) :
    forText text ∈ [basic, literal, multilineBasic, multilineLiteral] := by
  unfold forText
  dsimp only
  split_ifs <;> simp

/-- Every text is written in a style that can hold it. -/
theorem written_forText (text : List Char) :
    Written (forText text) 0 text ((forText text).body text) := by
  have hcontrols (h : text.any isBareControl = false) (c : Char) (hc : c ∈ text) :
      isBareControl c = false := by
    simpa using List.any_eq_false.mp h c hc
  unfold forText
  dsimp only
  split_ifs with hbasic hliteral hmultilineBasic hmultilineLiteral hlines
  · exact written_escaped rfl rfl text 0
  · simp only [Bool.and_eq_true, Bool.not_eq_true', beq_iff_eq] at hliteral
    obtain ⟨⟨hcontrol, hline⟩, hrun⟩ := hliteral
    refine written_verbatim rfl (runsWithin_of_longestRun (Nat.le_of_eq hrun)) (hcontrols hcontrol)
      fun h => ?_
    simp [h] at hline
  · exact written_escaped rfl rfl text 0
  · simp only [Bool.and_eq_true, Bool.not_eq_true', decide_eq_true_eq] at hmultilineLiteral
    obtain ⟨hcontrol, hrun⟩ := hmultilineLiteral
    exact written_verbatim rfl (runsWithin_of_longestRun hrun) (hcontrols hcontrol) fun _ => rfl
  · exact written_escaped rfl rfl text 0
  · exact written_escaped rfl rfl text 0

end QuoteStyle

/-- Three quotes in a row open a string of several lines; any other quote opens one of one line. -/
theorem readString_mark (h : ¬['"', '"'] <+: rest) :
    readString ('"' :: rest) = readBody .basic .plain rest := by
  unfold readString
  split
  · next heq =>
    obtain ⟨-, rfl⟩ := List.cons.inj heq
    exact absurd (by simp) h
  · next heq => exact absurd (List.cons.inj heq).1 (by decide)
  · rfl

theorem readString_apostrophe (h : ¬['\'', '\''] <+: rest) :
    readString ('\'' :: rest) = readBody .literal .plain rest := by
  unfold readString
  split
  · next heq => exact absurd (List.cons.inj heq).1 (by decide)
  · next heq =>
    obtain ⟨-, rfl⟩ := List.cons.inj heq
    exact absurd (by simp) h
  · rfl

/-- On one line no text begins with a quote, so its quotes are not taken for three. -/
theorem Written.not_tripled (h : Written style 0 text written) (hm : style.multiline = false)
    (hrest : rest.head? ≠ some style.quote) :
    ¬[style.quote, style.quote] <+: written ++ style.delimiter ++ rest := by
  cases h with
  | nil =>
    cases rest with
    | nil => simp [QuoteStyle.delimiter, hm]
    | cons d rest => simpa [QuoteStyle.delimiter, hm, eq_comm] using hrest
  | quote hrun => simp [QuoteStyle.quotesInside, hm] at hrun
  | unit _ hne => simp [Ne.symm hne]

theorem dropFirstLineEnd_cons (hline : c ≠ '\n') (hreturn : c ≠ '\r') :
    dropFirstLineEnd (c :: rest) = c :: rest := by
  unfold dropFirstLineEnd
  split
  · next heq => exact absurd (List.cons.inj heq).1 hline
  · next heq => exact absurd (List.cons.inj heq).1 hreturn
  · rfl

/-- The line ending that a body of several lines begins on. -/
def openingLine (text : List Char) : List Char := if text.contains '\n' then ['\n'] else []

/-- Between three quotes the line ending that is dropped is never one of the text. -/
theorem Written.dropFirstLineEnd (h : Written style 0 text written)
    (hquote : style.quote ≠ '\n' ∧ style.quote ≠ '\r') (hm : style.multiline = true) :
    dropFirstLineEnd (openingLine text ++ written ++ style.delimiter ++ rest) =
      written ++ style.delimiter ++ rest := by
  unfold openingLine
  split
  · rfl
  · next hlines =>
    cases h with
    | nil =>
      have hdelimiter : style.delimiter = style.quote :: List.replicate 2 style.quote := by
        simp [QuoteStyle.delimiter, hm, List.replicate_succ]
      rw [hdelimiter]
      exact dropFirstLineEnd_cons hquote.1 hquote.2
    | quote => exact dropFirstLineEnd_cons hquote.1 hquote.2
    | unit _ _ hreturn hline =>
      refine dropFirstLineEnd_cons (fun h => hlines ?_) hreturn
      simp [hline h]

/-- A string reads back as the text that it was written for, whatever its style. -/
theorem readString_writeString (text : List Char) (hmark : rest.head? ≠ some '"')
    (happostrophe : rest.head? ≠ some '\'') :
    readString (writeString text ++ rest) = some (text, rest) := by
  have hwritten := QuoteStyle.written_forText text
  have hstyle := QuoteStyle.forText_mem text
  unfold writeString
  generalize QuoteStyle.forText text = style at hwritten hstyle
  simp only [List.mem_cons, List.not_mem_nil, or_false] at hstyle
  rcases hstyle with rfl | rfl | rfl | rfl
  · exact (readString_mark (hwritten.not_tripled rfl hmark)).trans (hwritten.readBody hmark)
  · exact (readString_apostrophe (hwritten.not_tripled rfl happostrophe)).trans
      (hwritten.readBody happostrophe)
  · have hbody := hwritten.readBody hmark
    rw [← hwritten.dropFirstLineEnd (by decide) rfl] at hbody
    exact hbody
  · have hbody := hwritten.readBody happostrophe
    rw [← hwritten.dropFirstLineEnd (by decide) rfl] at hbody
    exact hbody

end TemplateMarkup.Toml
