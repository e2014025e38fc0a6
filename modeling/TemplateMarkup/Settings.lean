import TemplateMarkup.Options
import TemplateMarkup.Toml.Document

/-!
# Settings files

A settings file is a TOML document with the options of a parser and the nesting sequences of a
region. Every key is optional and has its default when it is missing; keys with another name are
ignored, but the numbers in their values must be usable.
-/

namespace TemplateMarkup

structure Settings where
  options : Options := {}
  nesting? : Option Nesting := none
  deriving DecidableEq, Repr, Inhabited

/-- Why a settings file cannot be used. -/
inductive SettingsError where
  | notReadable
  | notUtf8
  /-- It is not a TOML document, or a value in it has the wrong type. -/
  | malformed
  deriving DecidableEq, Repr

/-- What the user is told of a file that could not be read as text. -/
def SettingsError.message? (path : String) : SettingsError → Option String
  | notUtf8 =>
    some ("Failed to read config file at " ++ path ++ ": stream did not contain valid UTF-8")
  | notReadable | malformed => none

namespace Settings

open Toml (Entries Value)

/-! ## Reading -/

/-- The value of a key, or the default of a key that is missing. -/
def field {α : Type} (es : Entries) (key : String) (default : α) (read : Value → Option α) :
    Option α :=
  match es.get? key.toList with
  | none => some default
  | some v => read v

def booleanOf? : Value → Option Bool
  | .boolean b => some b
  | _ => none

def stringOf? : Value → Option String
  | .string cs => some (String.ofList cs)
  | _ => none

def stringsOf? : Value → Option (List String)
  | .array vs => vs.mapM stringOf?
  | _ => none

def nestingKeys : List String := ["start", "end", "case_sensitive"]

/-- A pair of nesting sequences, as a table or as a list of its values in order. A list is not looked
at behind these values. -/
def nestingOf? : Value → Option Nesting
  | .table _ es => do
    guard (Entries.othersUsable nestingKeys es)
    let opener ← stringOf? (← Entries.get? es "start".toList)
    let closer ← stringOf? (← Entries.get? es "end".toList)
    pure ⟨opener, closer, ← field es "case_sensitive" false booleanOf?⟩
  | .array (opener :: closer :: rest) => do
    let caseSensitive ←
      match rest with
      | [] => pure false
      | v :: _ => booleanOf? v
    pure ⟨← stringOf? opener, ← stringOf? closer, caseSensitive⟩
  | _ => none

def keys : List String :=
  ["design_time", "text_tag_name", "script_tag_name", "html_script_type", "void_elements", "nesting"]

/-- The settings that a document describes. -/
def ofEntries? (es : Entries) : Option Settings := do
  guard (Entries.othersUsable keys es)
  let d : Options := {}
  let options : Options := {
    designTime := ← field es "design_time" d.designTime booleanOf?
    textTagName := ← field es "text_tag_name" d.textTagName stringOf?
    scriptTagName := ← field es "script_tag_name" d.scriptTagName stringOf?
    htmlScriptType := ← field es "html_script_type" d.htmlScriptType stringOf?
    voidElements := ← field es "void_elements" d.voidElements stringsOf? }
  pure { options, nesting? := ← field es "nesting" none fun v => (nestingOf? v).map some }

def ofToml? (source : String) : Option Settings := (Toml.read source.toList).bind ofEntries?

/-- The settings in a file. -/
def ofBytes (content : ByteArray) : Except SettingsError Settings :=
  match String.fromUTF8? content with
  | none => .error .notUtf8
  | some source =>
    match ofToml? source with
    | none => .error .malformed
    | some settings => .ok settings

/-! ## Writing -/

/-- The lines of the options, in their fixed order. -/
def optionLines (o : Options) : List (List Char) :=
  [Toml.writeEntry "design_time" (Toml.writeBoolean o.designTime),
   Toml.writeEntry "text_tag_name" (Toml.writeString o.textTagName.toList),
   Toml.writeEntry "script_tag_name" (Toml.writeString o.scriptTagName.toList),
   Toml.writeEntry "html_script_type" (Toml.writeString o.htmlScriptType.toList),
   Toml.writeEntry "void_elements" (Toml.writeStrings (o.voidElements.map String.toList))]

/-- The table of the nesting sequences, behind an empty line. -/
def nestingLines (n : Nesting) : List (List Char) :=
  [['\n'],
   Toml.writeHeader "nesting",
   Toml.writeEntry "start" (Toml.writeString n.opener.toList),
   Toml.writeEntry "end" (Toml.writeString n.closer.toList),
   Toml.writeEntry "case_sensitive" (Toml.writeBoolean n.caseSensitive)]

/-- The settings as a document that `ofToml?` reads back. -/
def toToml (s : Settings) : String :=
  String.ofList (optionLines s.options ++ (s.nesting?.map nestingLines).getD []).flatten

end Settings

end TemplateMarkup
