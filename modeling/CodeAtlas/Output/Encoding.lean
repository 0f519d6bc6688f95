import CodeAtlas.Difference.Meaning
import CodeAtlas.Difference.Structure
import CodeAtlas.Graph.Basic
import CodeAtlas.Output.JsonValue
import CodeAtlas.Patch.Proposal
import CodeAtlas.Scope
import CodeAtlas.Token.Alignment

/-!
# Answers as JSON values

The names under which the parts of an answer are written.
-/
namespace CodeAtlas

open JsonValue

def GraphSummary.toJson (s : GraphSummary) : JsonValue :=
  object [
    ("files", number s.files),
    ("nodes", number s.nodes),
    ("declarations", number s.declarations),
    ("links", number s.links),
    ("links_by_kind", object (s.linksByKind.map fun (k, n) => (k.name, number n))),
    ("interfaces_implemented", number s.interfacesImplemented)]

def Scope.toJson (s : Scope) : JsonValue :=
  object [
    ("id", number s.id),
    ("name", string s.name),
    ("kind", string s.kind.name),
    ("file_path", string s.path),
    ("start", number s.start),
    ("length", number s.length),
    ("parent", ofOption number s.parent),
    ("children", ofList number s.children)]

def ScopeForest.toJson (f : ScopeForest) : JsonValue :=
  object [
    ("file_path", string f.path),
    ("nodes", ofList Scope.toJson f.scopes),
    ("roots", ofList number f.roots)]

def Token.toJson (t : Token) : JsonValue :=
  object ([
    ("kind", string t.kind.name),
    ("text", string t.text),
    ("start", number t.start),
    ("length", number t.length)] ++ (t.binding.map fun b => ("binding", number b)).toList)

def Change.toJson : Change → JsonValue
  | .unchanged source target =>
    object [("change", string "unchanged"), ("source", source.toJson), ("target", target.toJson)]
  | .inserted token => object [("change", string "inserted"), ("token", token.toJson)]
  | .removed token => object [("change", string "removed"), ("token", token.toJson)]
  | .replaced source target =>
    object [
      ("change", string "modified"),
      ("source_count", number source),
      ("target_count", number target),
      ("too_large", boolean true)]

def NodeReport.toJson (r : NodeReport) : JsonValue :=
  object [
    ("kind", string r.kind),
    ("start", number r.start),
    ("end", number r.stop),
    ("start_line", number r.startLine),
    ("end_line", number r.stopLine),
    ("text", string r.text)]

def TreeComparison.toJson (d : TreeComparison) : JsonValue :=
  let modification (m : Modification) : JsonValue :=
    object [("old", m.old.toJson), ("new", m.new.toJson), ("change_type", string m.kind.name)]
  object [
    ("added", ofList NodeReport.toJson d.added),
    ("removed", ofList NodeReport.toJson d.removed),
    ("modified", ofList modification d.modified)]

def LineReport.toJson (l : LineReport) : JsonValue :=
  object [
    ("line_number", JsonValue.number l.number),
    ("text", string l.text),
    ("kind", string (if l.changed then "added" else "unchanged"))]

def MergeReport.toJson (s : MergeReport) : JsonValue :=
  object [("replaced", ofList string s.replaced), ("appended", ofList string s.appended)]

def Proposal.toJson (p : Proposal) : JsonValue :=
  object [
    ("file_path", string p.path),
    ("original_text", string p.current),
    ("new_text", string p.patched),
    ("status", p.status.toJson)]

end CodeAtlas
