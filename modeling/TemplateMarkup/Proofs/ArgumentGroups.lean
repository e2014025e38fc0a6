import TemplateMarkup.CommandLine

/-! # The grammar of the arguments

Arguments come in groups: an option with what belongs to it, or the file. The groups say what
the arguments mean, and of two groups of one kind the later counts, so it only matters in
which order those of one kind stand. Every list of groups can be written, and only in one way
does a list of arguments come apart into groups. -/

namespace TemplateMarkup.CommandLine

/-! ## Groups -/

/-- The arguments that say one thing. -/
inductive ArgumentGroup where
  | config (path : String)
  | nested (opener closer : String)
  | caseSensitive
  | file (path : String) (plain : ¬ ['-', '-'] <+: path.toList)
  deriving DecidableEq

/-- What groups are about. -/
inductive Topic where
  | config
  | nested
  | caseSensitive
  | file
  deriving DecidableEq

namespace ArgumentGroup

def topic : ArgumentGroup → Topic
  | config _ => .config
  | nested _ _ => .nested
  | caseSensitive => .caseSensitive
  | file _ _ => .file

/-- The arguments of the group. -/
def arguments : ArgumentGroup → List String
  | config path => ["--config", path]
  | nested opener closer => ["--nested", opener, closer]
  | caseSensitive => ["--case-sensitive"]
  | file path _ => [path]

def config? : ArgumentGroup → Option String
  | config path => some path
  | _ => none

def nested? : ArgumentGroup → Option (String × String)
  | nested opener closer => some (opener, closer)
  | _ => none

def file? : ArgumentGroup → Option String
  | file path _ => some path
  | _ => none

/-- What is known when the group has been read as well. -/
def note (d : Draft) : ArgumentGroup → Draft
  | config path => { d with config? := some path }
  | nested opener closer => { d with nested? := some (opener, closer) }
  | caseSensitive => { d with caseSensitive := true }
  | file path _ => { d with file? := some path }

/-- The arguments of some groups, one group behind the other. -/
def written (groups : List ArgumentGroup) : List String := groups.flatMap arguments

/-- The files that groups name. -/
def files (groups : List ArgumentGroup) : List String := groups.filterMap file?

/-- The groups that are about the topic. -/
def about (topic : Topic) (groups : List ArgumentGroup) : List ArgumentGroup :=
  groups.filter (·.topic = topic)

/-- The groups name one file, and of the options each has what its last group says. -/
structure Means (groups : List ArgumentGroup) (args : Args) : Prop where
  file : files groups = [args.file]
  config : args.config? = (groups.filterMap config?).getLast?
  nested : args.nested? = (groups.filterMap nested?).getLast?
  caseSensitive : args.caseSensitive = true ↔ ArgumentGroup.caseSensitive ∈ groups

end ArgumentGroup

open ArgumentGroup

variable {d e : Draft} {args : Args} {g : ArgumentGroup} {groups others : List ArgumentGroup}
  {arguments rest : List String}

/-! ## Reading a group -/

theorem isOption_eq_false_iff {argument : String} :
    isOption argument = false ↔ ¬ ['-', '-'] <+: argument.toList := by
  rw [isOption, ← List.isPrefixOf_iff_prefix, Bool.not_eq_true]

/-- What has not the form of an option is none. -/
theorem ne_of_plain {argument : String} (plain : ¬ ['-', '-'] <+: argument.toList) :
    argument ≠ "--config" ∧ argument ≠ "--nested" ∧ argument ≠ "--case-sensitive" := by
  refine ⟨?_, ?_, ?_⟩ <;>
  · rintro rfl
    exact plain (by decide)

/-- An option is read with what belongs to it, whatever that looks like. -/
theorem readArgs_option (h : g.file? = none) (d : Draft) (rest : List String) :
    readArgs d (g.arguments ++ rest) = readArgs (g.note d) rest := by
  rw [readArgs.eq_def]
  cases g with
  | file => cases h
  | config | nested | caseSensitive => simp [ArgumentGroup.arguments, note]

theorem readArgs_file {path : String} (plain : ¬ ['-', '-'] <+: path.toList) (d : Draft)
    (rest : List String) : readArgs d (path :: rest) =
      if d.file? = none then readArgs { d with file? := some path } rest
      else .error (.unexpectedArgument path) := by
  obtain ⟨hconfig, hnested, hcase⟩ := ne_of_plain plain
  have hoption := isOption_eq_false_iff.mpr plain
  rw [readArgs.eq_def]
  simp [hconfig, hnested, hcase, hoption]

/-! ## Reading groups -/

@[simp] theorem written_cons (g : ArgumentGroup) (groups : List ArgumentGroup) :
    written (g :: groups) = g.arguments ++ written groups := rfl

theorem files_cons (g : ArgumentGroup) (groups : List ArgumentGroup) :
    files (g :: groups) = g.file?.toList ++ files groups := by
  cases g <;> rfl

/-- The files are the only thing about groups that can be wrong. -/
theorem readArgs_written (d : Draft) (groups : List ArgumentGroup) :
    readArgs d (written groups) =
      match d.file?.toList ++ files groups with
      | _ :: extra :: _ => .error (.unexpectedArgument extra)
      | _ => .ok (groups.foldl note d) := by
  induction groups generalizing d with
  | nil => cases d.file? <;> simp [written, files, readArgs]
  | cons g groups ih =>
    rw [written_cons, files_cons, List.foldl_cons]
    cases g with
    | file path plain =>
      rw [ArgumentGroup.arguments, List.singleton_append, readArgs_file plain]
      cases d.file? <;> simp [ih, note, ArgumentGroup.file?]
    | config | nested | caseSensitive =>
      rw [readArgs_option rfl, ih]
      rfl

/-- Where a group may say something anew, the last word counts. -/
theorem foldl_note {α : Type} (field : Draft → Option α) (told : ArgumentGroup → Option α)
    (h : ∀ (d : Draft) (g : ArgumentGroup), field (g.note d) = (told g).or (field d))
    (d : Draft) (groups : List ArgumentGroup) :
    field (groups.foldl note d) = (groups.filterMap told).getLast?.or (field d) := by
  induction groups generalizing d with
  | nil => rfl
  | cons g groups ih =>
    rw [List.foldl_cons, ih, h]
    cases htold : told g <;> simp [htold, List.getLast?_cons]

theorem caseSensitive_foldl_note (d : Draft) (groups : List ArgumentGroup) :
    (groups.foldl note d).caseSensitive =
      (d.caseSensitive || groups.contains ArgumentGroup.caseSensitive) := by
  induction groups generalizing d with
  | nil => simp
  | cons g groups ih => cases g <;> simp [ih, note]

/-- What the arguments of some groups are read as. -/
theorem parseArgs_written (groups : List ArgumentGroup) :
    parseArgs (written groups) =
      match files groups with
      | [] => .error .noFile
      | [path] => .ok
        { config? := (groups.filterMap config?).getLast?
          nested? := (groups.filterMap nested?).getLast?
          caseSensitive := groups.contains ArgumentGroup.caseSensitive
          file := path }
      | _ :: extra :: _ => .error (.unexpectedArgument extra) := by
  have hconfig := foldl_note Draft.config? ArgumentGroup.config?
    (fun d g => by cases g <;> rfl) {} groups
  have hnested := foldl_note Draft.nested? ArgumentGroup.nested?
    (fun d g => by cases g <;> rfl) {} groups
  have hfile := foldl_note Draft.file? ArgumentGroup.file?
    (fun d g => by cases g <;> rfl) {} groups
  rw [Option.or_none] at hconfig hnested hfile
  rw [parseArgs, readArgs_written]
  match hfiles : files groups with
  | [] =>
    rw [show groups.filterMap file? = [] from hfiles] at hfile
    simp [bind, Except.bind, hfile]
  | [path] =>
    rw [show groups.filterMap file? = [path] from hfiles] at hfile
    simp [bind, Except.bind, hfile, hconfig, hnested, caseSensitive_foldl_note]
  | _ :: extra :: _ => rfl

theorem parseArgs_written_eq_ok_iff :
    parseArgs (written groups) = .ok args ↔ Means groups args := by
  rw [parseArgs_written]
  constructor
  · intro h
    split at h
    · cases h
    · next path hfile =>
      cases h
      exact ⟨hfile, rfl, rfl, by simp⟩
    · cases h
  · rintro ⟨hfile, hconfig, hnested, hcase⟩
    have hcase' : args.caseSensitive = groups.contains ArgumentGroup.caseSensitive := by
      rw [Bool.eq_iff_iff, hcase, List.contains_iff_mem]
    rw [hfile]
    simp only [← hconfig, ← hnested, ← hcase']

/-! ## Arguments come apart into groups -/

/-- Arguments that are read without an error are those of some groups. -/
theorem exists_written_of_readArgs (h : readArgs d arguments = .ok e) :
    ∃ groups, written groups = arguments := by
  fun_induction readArgs d arguments with
  | case1 => exact ⟨[], rfl⟩
  | case3 d path rest ih =>
    obtain ⟨groups, rfl⟩ := ih h
    exact ⟨.config path :: groups, rfl⟩
  | case6 d opener closer rest _ ih =>
    obtain ⟨groups, rfl⟩ := ih h
    exact ⟨.nested opener closer :: groups, rfl⟩
  | case7 d rest _ _ ih =>
    obtain ⟨groups, rfl⟩ := ih h
    exact ⟨.caseSensitive :: groups, rfl⟩
  | case9 d path rest _ _ _ hoption _ ih =>
    obtain ⟨groups, rfl⟩ := ih h
    have plain := isOption_eq_false_iff.mp (Bool.eq_false_iff.mpr hoption)
    exact ⟨.file path plain :: groups, rfl⟩
  | case2 | case4 | case5 | case8 | case10 => cases h

theorem exists_written_of_parseArgs (h : parseArgs arguments = .ok args) :
    ∃ groups, written groups = arguments := by
  rw [parseArgs] at h
  cases hread : readArgs {} arguments with
  | ok d => exact exists_written_of_readArgs hread
  | error e =>
    rw [hread] at h
    cases h

/-- What the group is about that begins with the argument. -/
def Topic.ofFirst (argument : String) : Topic :=
  if argument = "--config" then .config
  else if argument = "--nested" then .nested
  else if argument = "--case-sensitive" then .caseSensitive
  else .file

theorem topic_of_first (g : ArgumentGroup) (rest : List String) :
    (g.arguments ++ rest).head?.map Topic.ofFirst = some g.topic := by
  cases g with
  | config | nested | caseSensitive => rfl
  | file path plain =>
    obtain ⟨hconfig, hnested, hcase⟩ := ne_of_plain plain
    simp [ArgumentGroup.arguments, Topic.ofFirst, hconfig, hnested, hcase, topic]

theorem arguments_append_inj {a b : ArgumentGroup} {rest more : List String}
    (h : a.arguments ++ rest = b.arguments ++ more) : a = b ∧ rest = more := by
  have htopic : a.topic = b.topic := by
    have hfirst := topic_of_first a rest
    rw [h, topic_of_first b more] at hfirst
    exact (Option.some.inj hfirst).symm
  -- groups about one topic have as many arguments
  cases a <;> cases b <;> first | contradiction | simpa [ArgumentGroup.arguments, and_assoc] using h

/-- There is only one way to divide arguments into groups. -/
theorem written_inj (h : written groups = written others) : groups = others := by
  induction groups generalizing others with
  | nil =>
    cases others with
    | nil => rfl
    | cons b others => cases b <;> simp [written, ArgumentGroup.arguments] at h
  | cons a groups ih =>
    cases others with
    | nil => cases a <;> simp [written, ArgumentGroup.arguments] at h
    | cons b others =>
      obtain ⟨rfl, hrest⟩ := arguments_append_inj h
      rw [ih hrest]

/-! ## The order of groups -/

/-- What is only said by groups about one topic is said by these in their order. -/
theorem filterMap_about {α : Type} {told : ArgumentGroup → Option α} {topic : Topic}
    (h : ∀ g : ArgumentGroup, g.topic ≠ topic → told g = none) (groups : List ArgumentGroup) :
    (about topic groups).filterMap told = groups.filterMap told := by
  rw [about, List.filterMap_filter]
  congr 1
  funext g
  by_cases hg : g.topic = topic
  · simp [hg]
  · simp [hg, h g hg]

/-- The order of groups about different topics does not matter. -/
theorem parseArgs_reordered (h : ∀ topic, about topic groups = about topic others) :
    parseArgs (written groups) = parseArgs (written others) := by
  have htold {α : Type} {told : ArgumentGroup → Option α} (topic : Topic)
      (htold : ∀ g : ArgumentGroup, g.topic ≠ topic → told g = none) :
      groups.filterMap told = others.filterMap told := by
    rw [← filterMap_about htold groups, h, filterMap_about htold others]
  have hconfig : groups.filterMap config? = others.filterMap config? :=
    htold .config fun g hg => by cases g <;> first | rfl | exact absurd rfl hg
  have hnested : groups.filterMap nested? = others.filterMap nested? :=
    htold .nested fun g hg => by cases g <;> first | rfl | exact absurd rfl hg
  have hfile : files groups = files others :=
    htold .file fun g hg => by cases g <;> first | rfl | exact absurd rfl hg
  have hcase : groups.contains ArgumentGroup.caseSensitive =
      others.contains ArgumentGroup.caseSensitive := by
    have hmem (groups : List ArgumentGroup) : ArgumentGroup.caseSensitive ∈ groups ↔
        ArgumentGroup.caseSensitive ∈ about .caseSensitive groups := by
      simp [about, topic]
    rw [Bool.eq_iff_iff, List.contains_iff_mem, List.contains_iff_mem, hmem, h, ← hmem]
  rw [parseArgs_written, parseArgs_written, hfile, hconfig, hnested, hcase]

/-- Arguments are good exactly if they come apart into groups with one file among them. What they
mean is then what these groups mean, and it stays the same where groups about different topics
change places. -/
theorem parseArgs_ok_iff_groups (arguments : List String) :
    ((∃ args, parseArgs arguments = .ok args) ↔
      ∃ groups, written groups = arguments ∧ (files groups).length = 1) ∧
    ∀ groups, written groups = arguments →
      (∀ args, parseArgs arguments = .ok args ↔ Means groups args) ∧
      (∀ others, written others = arguments → others = groups) ∧
      ∀ others, (∀ topic, about topic others = about topic groups) →
        parseArgs (written others) = parseArgs arguments := by
  refine ⟨⟨?_, ?_⟩, ?_⟩
  · rintro ⟨args, h⟩
    obtain ⟨groups, rfl⟩ := exists_written_of_parseArgs h
    exact ⟨groups, rfl, by rw [(parseArgs_written_eq_ok_iff.mp h).file]; rfl⟩
  · rintro ⟨groups, rfl, hfile⟩
    obtain ⟨path, hpath⟩ := List.length_eq_one_iff.mp hfile
    exact ⟨_, by rw [parseArgs_written, hpath]⟩
  · rintro groups rfl
    exact ⟨fun _ => parseArgs_written_eq_ok_iff, fun _ => written_inj,
      fun _ => parseArgs_reordered⟩

/-- What belongs to an option is taken as it is, and the later of two paths counts. -/
theorem parseArgs_ok_iff_groups_dashes :
    let arguments := ["--config", "--nested", "page", "--nested", "--", ">>", "--config", "c.toml"]
    let groups : List ArgumentGroup :=
      [.config "--nested", .file "page" (by decide), .nested "--" ">>", .config "c.toml"]
    let others : List ArgumentGroup :=
      [.nested "--" ">>", .config "--nested", .config "c.toml", .file "page" (by decide)]
    written groups = arguments ∧
      parseArgs arguments = .ok ⟨some "c.toml", some ("--", ">>"), false, "page"⟩ ∧
      (∀ topic, about topic others = about topic groups) ∧
      parseArgs (written others) = parseArgs arguments := by
  intro arguments groups others
  have hwritten : written groups = arguments := rfl
  have hsame : ∀ topic, about topic others = about topic groups := by
    intro topic
    cases topic <;> rfl
  obtain ⟨hmeans, -, hreordered⟩ := (parseArgs_ok_iff_groups arguments).2 groups hwritten
  exact ⟨hwritten, (hmeans _).mpr ⟨rfl, rfl, rfl, by decide⟩, hsame, hreordered others hsame⟩

end TemplateMarkup.CommandLine
