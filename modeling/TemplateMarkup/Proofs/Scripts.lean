import TemplateMarkup.Code.Script
import TemplateMarkup.Proofs.Implicit
import TemplateMarkup.Proofs.Tags

/-! # Scripted code is lawful

Every step of a script is a path whose markers are those of the list: the nodes
it started, then its open tags, then the tags it took off and kept. Two steps
ask for something in return, a rewind that its index is a token's and a report
that its range is one. The records of a run say whether this was so. -/

namespace TemplateMarkup.Script

open Cursor Event

/-! ## Orderly records -/

/-- Whether a step makes sense where the source has that many tokens: a rewind
goes to one of them or to their end, and a range does not end before it starts. -/
def Step.Fits (tokenCount : Nat) : Step → Prop
  | .rewind index => index ≤ tokenCount
  | .report _ range => range.start ≤ range.stop
  | _ => True

instance (tokenCount : Nat) (s : Step) : Decidable (s.Fits tokenCount) := by
  unfold Step.Fits
  split <;> infer_instance

/-- Whether the step behind a record made sense. -/
def Record.Orderly (r : Record) : Prop :=
  match r.moment with
  | .after step => step.Fits r.tokenCount
  | .enter | .leave => True

instance (r : Record) : Decidable r.Orderly := by
  unfold Record.Orderly
  split <;> infer_instance

/-- Whether all steps so far made sense. -/
def Orderly (s : Script) : Prop := ∀ r ∈ s.records, r.Orderly

instance (s : Script) : Decidable s.Orderly := inferInstanceAs (Decidable (∀ r ∈ s.records, _))

/-- The second state comes after the first: records are only added and lists
are only used up. -/
def Since (s t : Script) : Prop := (t.Orderly → s.Orderly) ∧ t.remaining ≤ s.remaining

theorem Since.refl (s : Script) : Since s s := ⟨id, Nat.le_refl _⟩

theorem Since.trans {s t u : Script} (h : Since s t) (h' : Since t u) : Since s u :=
  ⟨fun hu => h.1 (h'.1 hu), Nat.le_trans h'.2 h.2⟩

theorem Since.of_eq {s t : Script} (h : t = s) : Since s t := h ▸ Since.refl s

theorem since_record (source : Source) (moment : Moment) (answer : Answer) (c : Cursor Script) :
    Since c.host (record source moment answer c).host :=
  ⟨fun h r hr => h r (List.mem_cons_of_mem _ hr), Nat.le_refl _⟩

theorem fits_of_record {source : Source} {step : Step} {answer : Answer} {c : Cursor Script}
    (h : (record source (.after step) answer c).host.Orderly) : step.Fits c.tokens.length :=
  h _ (List.mem_cons_self ..)

namespace Run

variable {inner : EmbeddedCode Script}

/-- One step with its record. -/
def next (inner : EmbeddedCode Script) (source : Source) (r : Run) (s : Step) : Run :=
  { (r.step inner s).2 with
    cursor := record source (.after s) (r.step inner s).1 (r.step inner s).2.cursor }

theorem since_step (hi : inner.Respects Since) (r : Run) (s : Step) :
    Since r.cursor.host (r.step inner s).2.cursor.host := by
  cases s with
  | code => exact hi.block r.cursor
  | comment => exact hi.comment r.cursor
  | split byte =>
    simp only [Run.step]
    split
    · next c hc =>
      unfold Cursor.split? at hc
      split at hc
      · split at hc
        · cases hc
          exact .of_eq (host_splitAfter _ _)
        · cases hc
      · cases hc
    · exact .refl _
  | complete kind | abandon | close =>
    simp only [Run.step]
    split <;> exact .of_eq (by simp)
  | push name start withBlock =>
    cases withBlock
    · exact .refl _
    · exact .of_eq (host_start _)
  | remove name endTag =>
    have hr := host_removeMatching name endTag r.openTags r.cursor
    simp only [Run.step]
    split
    · next t rest c h =>
      rw [h] at hr
      exact .of_eq hr
    · next rest c h =>
      rw [h] at hr
      exact .of_eq hr
  | _ => exact .of_eq (by simp [Run.step])

theorem since_next (hi : inner.Respects Since) (source : Source) (r : Run) (s : Step) :
    Since r.cursor.host (r.next inner source s).cursor.host :=
  (since_step hi r s).trans (since_record ..)

theorem since_steps (hi : inner.Respects Since) (source : Source) (list : List Step) (r : Run) :
    Since r.cursor.host (list.foldl (next inner source) r).cursor.host := by
  induction list generalizing r with
  | nil => exact .refl _
  | cons s list ih => exact (since_next hi source r s).trans (ih _)

theorem host_foldl_complete (markers : List Marker) (c : Cursor Script) :
    (markers.foldl (fun c m => c.complete m .codeBlock) c).host = c.host := by
  induction markers generalizing c with
  | nil => rfl
  | cons m markers ih => rw [List.foldl_cons, ih, host_complete]

theorem host_close (r : Run) : r.close.host = r.cursor.host := by
  unfold Run.close
  dsimp only
  rw [host_foldl_complete, host_drain, host_foldl_close]

end Run

theorem since_runList {inner : EmbeddedCode Script} (hi : inner.Respects Since) (source : Source)
    (list : List Step) (c : Cursor Script) :
    Since c.host (runList inner source list c).host := by
  refine (since_record source .enter .none c).trans (Since.trans ?_ (since_record ..))
  rw [Run.host_close]
  exact Run.since_steps hi source list ⟨record source .enter .none c, [], [], [], _⟩

theorem respects_scripted (depth : Nat) : (parser depth).Respects Since := by
  induction depth with
  | zero => exact ⟨.refl, .trans, fun c => .of_eq (host_implicitExpression c),
      fun c => .of_eq (host_inlineComment c)⟩
  | succ depth ih =>
    refine ⟨.refl, .trans, fun c => ?_, fun c => ?_⟩
    · simp only [parser]
      split
      · exact .of_eq (host_implicitExpression c)
      · next list blocks hb =>
        refine Since.trans ?_ (since_runList ih _ _ { c with
          host := { c.host with blocks, blocksRun := c.host.blocksRun + 1 } })
        exact ⟨id, by simp [remaining, hb]⟩
    · simp only [parser]
      split
      · exact .of_eq (host_inlineComment c)
      · next list comments hc =>
        refine Since.trans ?_ (since_runList ih _ _ { c with
          host := { c.host with comments, commentsRun := c.host.commentsRun + 1 } })
        refine ⟨id, ?_⟩
        simp only [remaining, hc, List.length_cons]
        omega

/-! ## Steps are paths -/

namespace Run

variable {inner : EmbeddedCode Script} {base : List Event} {ms : List Marker} {r : Run}

/-- The markers that a list of steps owns. -/
def owned (r : Run) : List Marker :=
  r.markers ++ (OpenTags.markers r.openTags ++ OpenTags.markers r.kept)

theorem position_le (h : Sound False base ms c) : c.position ≤ c.tokens.length := by
  rw [Sound.length_tokens, List.length_append, List.length_reverse, position, h.overrun]
  omega

/-- The markers in any order. -/
theorem reorder {c₀ c : Cursor Script} {ms₀ ms ns : List Marker} {gain : Nat}
    (h : Reaches False base c₀ ms₀ gain c ms) (hp : ∀ m, ms.count m = ns.count m) :
    Reaches False base c₀ ms₀ gain c ns :=
  h.step (.reorder (List.perm_iff_count.mpr hp))

/-- From one state of a list to the other there is a path, whose markers are those of the list. -/
def Follows (base : List Event) (ms : List Marker) (r r' : Run) : Prop :=
  Reaches False base r.cursor (r.owned ++ ms) 0 r'.cursor (r'.owned ++ ms)

theorem owned_of_markers {m : Marker} {rest : List Marker} (hm : r.markers = m :: rest) :
    r.owned ++ ms = m :: ({ r with markers := rest }.owned ++ ms) := by simp [owned, hm]

/-- The markers of the open tags are moved to the front, where the open tags are dealt with. -/
theorem openTags_first (h : Sound False base (r.owned ++ ms) r.cursor) :
    Reaches False base r.cursor (r.owned ++ ms) 0 r.cursor
      (OpenTags.markers r.openTags ++ (r.markers ++ OpenTags.markers r.kept ++ ms)) := by
  refine reorder (Reaches.refl h) fun m => ?_
  simp only [owned, List.count_append]
  omega

theorem follows_split (h : Sound False base (r.owned ++ ms) r.cursor) (byte : Nat) :
    Follows base ms r (r.step inner (.split byte)).2 := by
  have hr := Reaches.refl h
  simp only [Run.step]
  split
  · next c hc =>
    unfold Cursor.split? at hc
    split at hc
    · split at hc
      · cases hc
        exact hr.splitAfter _
      · cases hc
    · cases hc
  · exact hr

theorem follows_complete (h : Sound False base (r.owned ++ ms) r.cursor) (kind : Kind) :
    Follows base ms r (r.step inner (.complete kind)).2 := by
  have hr := Reaches.refl h
  simp only [Run.step]
  split
  · exact hr
  · next m rest hm =>
    rw [owned_of_markers hm] at hr
    rw [Follows, owned_of_markers hm]
    exact hr.complete kind

theorem follows_abandon (h : Sound False base (r.owned ++ ms) r.cursor) :
    Follows base ms r (r.step inner .abandon).2 := by
  have hr := Reaches.refl h
  simp only [Run.step]
  split
  · exact hr
  · next m rest hm =>
    rw [owned_of_markers hm] at hr
    rw [Follows, owned_of_markers hm]
    exact hr.step (.abandon id)

theorem follows_push (h : Sound False base (r.owned ++ ms) r.cursor) (name : List Char)
    (start : Nat) (withBlock : Bool) :
    Follows base ms r (r.step inner (.push name start withBlock)).2 := by
  cases withBlock with
  | false => exact Reaches.refl h
  | true =>
    refine reorder (Reaches.refl h).start fun m => ?_
    have ho : ((r.step inner (.push name start true)).2.owned ++ ms) = r.markers ++
      (r.cursor.start.1 :: OpenTags.markers r.openTags ++ OpenTags.markers r.kept) ++ ms := rfl
    rw [ho]
    simp only [owned, List.count_append, List.count_cons]
    omega

theorem follows_remove (h : Sound False base (r.owned ++ ms) r.cursor) (name : List Char)
    (endTag : Nat) : Follows base ms r (r.step inner (.remove name endTag)).2 := by
  have hrem := (openTags_first h).removeMatching name endTag nofun nofun
  simp only [Run.step]
  split
  · next t rest c hc =>
    rw [hc] at hrem
    refine reorder hrem fun m => ?_
    simp only [owned, markers_cons t r.kept, List.count_append, Option.toList]
    omega
  · next rest c hc =>
    rw [hc] at hrem
    refine reorder hrem fun m => ?_
    simp only [owned, Option.toList, OpenTags.markers, List.filterMap_nil, List.count_append,
      List.count_nil]
    omega

theorem follows_close (h : Sound False base (r.owned ++ ms) r.cursor) :
    Follows base ms r (r.step inner .close).2 := by
  have hr := Reaches.refl h
  simp only [Run.step]
  split
  · exact hr
  · next t rest hk =>
    refine Reaches.closeTag (reorder hr fun m => ?_)
    simp only [owned, hk, markers_cons t rest, List.count_append]
    omega

/-- Every step is a path. -/
theorem step_reaches (hl : inner.Stepwise False Orderly) (s : Step)
    (hs : s.Fits (r.step inner s).2.cursor.tokens.length)
    (hok : Orderly (r.step inner s).2.cursor.host) (h : Sound False base (r.owned ++ ms) r.cursor)
    (hsaved : r.saved ≤ r.cursor.tokens.length) : Follows base ms r (r.step inner s).2 := by
  have hr := Reaches.refl h
  cases s with
  | bump => exact hr.bump
  | advance => exact hr.advance
  | acceptRead => exact hr.acceptRead
  | mark | look kind | nth n | kindAt index | textBetween start stop | get flag | noOpenTags =>
    exact hr
  | rewindToMark => exact hr.step (.rewind _ hsaved)
  | rewind index => exact hr.step (.rewind _ (by simpa [Run.step, Step.Fits] using hs))
  | eat kind => exact hr.eat kind
  | split byte => exact follows_split h byte
  | flush kind => exact hr.flush kind
  | flushRaw => exact hr.flushRaw
  | missing kind => exact hr.missing kind
  | start => exact hr.start
  | complete kind => exact follows_complete h kind
  | abandon => exact follows_abandon h
  | report problem range => exact hr.report problem hs nofun
  | set flag value => exact hr.context _
  | code => exact hr.codeBlock hl hok
  | comment => exact hr.codeComment hl hok
  | inlineComment => exact hr.inlineComment
  | implicitExpression => exact hr.implicitExpression
  | push name start withBlock => exact follows_push h name start withBlock
  | remove name endTag => exact follows_remove h name endTag
  | close => exact follows_close h
  | drain => exact (openTags_first h).drain nofun

/-- What the steps of a list keep: the markers they own wait, and the position
remembered is one that a rewind may go to. -/
structure Kept (base : List Event) (c₀ : Cursor Script) (ms : List Marker) (r : Run) : Prop where
  reaches : Reaches False base c₀ ms 0 r.cursor (r.owned ++ ms)
  saved : r.saved ≤ r.cursor.tokens.length

theorem saved_step (h : Sound False base ms r.cursor) (hsaved : r.saved ≤ r.cursor.tokens.length)
    (s : Step) : (r.step inner s).2.saved ≤ r.cursor.tokens.length := by
  cases s with
  | mark => exact position_le h
  | split | complete | abandon | close | remove =>
    simp only [Run.step]
    split <;> exact hsaved
  | _ => exact hsaved

theorem Kept.next {c₀ : Cursor Script} (hl : inner.Stepwise False Orderly) (source : Source) (s : Step)
    (hok : Orderly (r.next inner source s).cursor.host) (h : Kept base c₀ ms r) :
    Kept base c₀ ms (r.next inner source s) := by
  have hstep := step_reaches hl s (fits_of_record hok) ((since_record ..).1 hok) h.reaches.sound
    h.saved
  exact ⟨(h.reaches.trans hstep).step (.host _), Nat.le_trans
    (saved_step h.reaches.sound h.saved s) hstep.path.length_tokens_le⟩

theorem Kept.steps {c₀ : Cursor Script} (hl : inner.Stepwise False Orderly) (hi : inner.Respects Since)
    (source : Source) (list : List Step)
    (hok : Orderly (list.foldl (Run.next inner source) r).cursor.host) (h : Kept base c₀ ms r) :
    Kept base c₀ ms (list.foldl (Run.next inner source) r) := by
  induction list generalizing r with
  | nil => exact h
  | cons s list ih => exact ih hok (h.next hl source s ((since_steps hi source list _).1 hok))

theorem foldl_complete {c₀ c : Cursor Script} {ms₀ markers : List Marker} {gain : Nat}
    (h : Reaches False base c₀ ms₀ gain c (markers ++ ms)) :
    Reaches False base c₀ ms₀ gain (markers.foldl (fun c m => c.complete m .codeBlock) c) ms := by
  induction markers generalizing c with
  | nil => exact h
  | cons m markers ih => exact ih (Reaches.complete .codeBlock h)

/-- At its end a list has no marker left. -/
theorem Kept.close {c₀ : Cursor Script} (h : Kept base c₀ ms r) :
    Reaches False base c₀ ms 0 r.close ms := by
  have hk : Reaches False base c₀ ms 0 r.cursor
      (OpenTags.markers r.kept ++ (OpenTags.markers r.openTags ++ (r.markers ++ ms))) := by
    refine reorder h.reaches fun m => ?_
    simp only [owned, List.count_append]
    omega
  exact foldl_complete (hk.foldl_close.drain nofun)

end Run

theorem runList_reaches {inner : EmbeddedCode Script} {base : List Event} {ms : List Marker}
    {c : Cursor Script} (hl : inner.Stepwise False Orderly) (hi : inner.Respects Since) (source : Source)
    (list : List Step) (hok : Orderly (runList inner source list c).host) (h : Sound False base ms c) :
    Reaches False base c ms 0 (runList inner source list c) ms := by
  have hsteps : Orderly (list.foldl (Run.next inner source)
      ⟨record source .enter .none c, [], [], [], c.position⟩).cursor.host := by
    have hclose := (since_record source .leave .none _).1 hok
    rwa [Run.host_close] at hclose
  have hstart : Run.Kept base c ms ⟨record source .enter .none c, [], [], [], c.position⟩ :=
    ⟨(Reaches.refl h).step (.host _), Run.position_le h⟩
  exact (hstart.steps hl hi source list hsteps).close.step (.host _)

/-! ## Scripts are lawful -/

/-- A call that runs a list is a path, and a call without a list is implicit code. -/
theorem stepwise_scripted (depth : Nat) : (parser depth).Stepwise False Orderly := by
  induction depth with
  | zero => exact (lawful_implicit False Orderly).toStepwise
  | succ depth ih =>
    have hi := respects_scripted depth
    refine ⟨?_, ?_, ?_⟩
    · have hsince := respects_scripted (depth + 1)
      exact ⟨fun _ => id, fun h h' hu => h (h' hu), fun c => (hsince.parseBlock c).1,
        fun c => (hsince.parseComment c).1⟩
    · intro base ms c h hok
      revert hok
      simp only [parser]
      split
      · exact fun _ => (Reaches.refl h).implicitExpression.path
      · next list blocks _ =>
        intro hok
        have hc := (Reaches.refl h).step (.host { c.host with
          blocks, blocksRun := c.host.blocksRun + 1 })
        exact (hc.follow (runList_reaches ih hi _ _ hok hc.sound).path).path
    · intro base ms c h hok
      revert hok
      simp only [parser]
      split
      · exact fun _ => (Reaches.refl h).inlineComment.path
      · next list comments _ =>
        intro hok
        have hc := (Reaches.refl h).step (.host { c.host with
          comments, commentsRun := c.host.commentsRun + 1 })
        exact (hc.follow (runList_reaches ih hi _ _ hok hc.sound).path).path

/-- A call that runs a list uses it up. -/
theorem patient_scripted (depth : Nat) : (parser depth).Patient False Orderly := by
  cases depth with
  | zero => exact patient_implicit False Orderly
  | succ depth =>
    have hi := respects_scripted depth
    refine ⟨stepwise_scripted (depth + 1), ?_, ?_, ?_⟩
    · have hsince := respects_scripted (depth + 1)
      exact ⟨fun _ => Nat.le_refl _, fun h h' => Nat.le_trans h' h,
        fun c => (hsince.parseBlock c).2, fun c => (hsince.parseComment c).2⟩
    · intro base ms c h hne _
      unfold EmbeddedCode.block
      rw [EmbeddedCode.Respects.host_ensureProgress]
      simp only [parser]
      split
      · exact .inr (claims_implicitExpression h hne)
      · next list blocks hb =>
        have hrun := (since_runList hi (.block c.host.blocksRun) list { c with
          host := { c.host with blocks, blocksRun := c.host.blocksRun + 1 } }).2
        refine .inl (Nat.lt_of_le_of_lt hrun ?_)
        simp [remaining, hb]
    · intro base ms c h hne _
      unfold EmbeddedCode.comment
      rw [EmbeddedCode.Respects.host_ensureProgress]
      simp only [parser]
      split
      · exact .inr (claims_inlineComment h hne)
      · next list comments hb =>
        have hrun := (since_runList hi (.comment c.host.commentsRun) list { c with
          host := { c.host with comments, commentsRun := c.host.commentsRun + 1 } }).2
        refine .inl (Nat.lt_of_le_of_lt hrun ?_)
        simp only [remaining, hb, List.length_cons]
        omega

theorem lawful_scripted (depth : Nat) : (parser depth).Lawful False Orderly :=
  (patient_scripted depth).lawful

end TemplateMarkup.Script
