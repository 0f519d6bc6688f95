import CodeAtlas.Project.Path

/-!
# Languages

The languages whose files are read, each with the extensions of its files.

## Main definitions

* `Language`, `Language.all`: the languages.
* `Language.ofName?`, `Language.ofExtension?`, `Language.ofPath?`: looking a language up.
-/
namespace CodeAtlas

/-- A language whose files are read. -/
structure Language where
  name : String
  extensions : List String
deriving DecidableEq, Inhabited

namespace Language

def csharp : Language := ⟨"csharp", ["cs"]⟩

/-- All languages. -/
def all : List Language := [csharp]

def ofName? (name : String) : Option Language :=
  all.find? (·.name == name)

def ofExtension? (extension : String) : Option Language :=
  all.find? (·.extensions.contains extension)

/-- The language of the file at `path`, told by its extension. -/
def ofPath? (path : String) : Option Language :=
  (Path.extension? path).bind ofExtension?

end Language

end CodeAtlas
