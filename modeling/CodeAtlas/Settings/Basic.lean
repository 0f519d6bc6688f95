import CodeAtlas.Cleanup
import CodeAtlas.Graph.Build
import CodeAtlas.Problem
import CodeAtlas.Settings.Toml.Document
import CodeAtlas.Token.Alignment

/-!
# Settings

How an analysis is to be done. A settings file gives some of the settings, the others keep their
defaults; keys that mean nothing are passed over.

## Main definitions

* `Settings`: the settings.
* `Settings.ofEntries?`: the settings that a table gives.
* `Settings.ofFile`, `Settings.ofProject`: reading them from a file.
-/
namespace CodeAtlas

/-- How an analysis is to be done. -/
structure Settings where
  diff : DiffSettings := {}
  index : IndexSettings := {}
  cleanup : CleanupFlags := {}

/-! ## Reading values -/

namespace Toml

/-- A count, which is not negative. -/
def count? : Toml → Option Nat
  | integer n => if 0 ≤ n then some n.toNat else none
  | _ => none

/-- A number, whole or not. -/
def number? : Toml → Option Float
  | float x => some x
  | integer n => some (Float.ofInt n)
  | _ => none

def boolean? : Toml → Option Bool
  | boolean b => some b
  | _ => none

def text? : Toml → Option String
  | text s => some s
  | _ => none

def texts? : Toml → Option (List String)
  | list items => items.mapM text?
  | _ => none

/-- The value under `key`, or the `default` if there is none. It has to be one that `read`
accepts. -/
def field? {α : Type} (entries : Entries) (key : String) (read : Toml → Option α) (default : α) :
    Option α :=
  match entries.lookup key with
  | some value => read value
  | none => some default

/-- The value at position `i`, or the `default` if there is none. It has to be one that `read`
accepts. -/
def item? {α : Type} (items : List Toml) (i : Nat) (read : Toml → Option α) (default : α) :
    Option α :=
  match items[i]? with
  | some value => read value
  | none => some default

end Toml

/-- The flags that a value gives: by name in a table, by position in a list. A moment gives none. -/
def CleanupFlags.ofToml? : Toml → Option CleanupFlags
  | .table _ entries => do
    return {
      omitImports := ← Toml.field? entries "omit_imports" Toml.boolean? true
      omitNamespaces := ← Toml.field? entries "omit_namespaces" Toml.boolean? true
      omitComments := ← Toml.field? entries "omit_comments" Toml.boolean? true
      omitBlankLines := ← Toml.field? entries "omit_blank_lines" Toml.boolean? true }
  | .list items => do
    return {
      omitImports := ← Toml.item? items 0 Toml.boolean? true
      omitNamespaces := ← Toml.item? items 1 Toml.boolean? true
      omitComments := ← Toml.item? items 2 Toml.boolean? true
      omitBlankLines := ← Toml.item? items 3 Toml.boolean? true }
  | .moment => some {}
  | _ => none

namespace Settings

/-- The settings that a table with these `entries` gives. -/
def ofEntries? (entries : Toml.Entries) : Option Settings := do
  let defaults : Settings := {}
  return {
    diff :=
      { budget := ← Toml.field? entries "diff_cell_budget" Toml.count? defaults.diff.budget
        threshold :=
          ← Toml.field? entries "rename_similarity_threshold" Toml.number? defaults.diff.threshold }
    index :=
      { granular := ← Toml.field? entries "include_granular_nodes" Toml.boolean? false
        extraBuiltins := ← Toml.field? entries "extra_builtin_types" Toml.texts? [] }
    cleanup := ← Toml.field? entries "context" CleanupFlags.ofToml? {} }

/-- The settings that `text` describes. -/
def parse? (text : String) : Option Settings := do
  ofEntries? (← Toml.parse? text)

/-! ## Settings files -/

/-- The name of the settings file of a project. -/
def fileName : String := ".code-context.toml"

/-- The settings in the file at `path`. -/
def ofFile (d : Directory) (path : String) : Except Problem Settings :=
  match d.readText path with
  | .error reason => .error (.unreadable reason)
  | .ok text =>
    match parse? text with
    | some settings => .ok settings
    | none => .error .faultySettings

/-- The settings of the project at `root`, which are the defaults if it has no settings file. -/
def ofProject (d : Directory) (root : String) : Except Problem Settings :=
  let path := Path.join root fileName
  if d.isFile path then ofFile d path else .ok {}

end Settings

end CodeAtlas
