import CodeAtlas.Project.Directory

/-!
# Problems

What keeps a request from being answered.

## Main definitions

* `Problem`: the problems.
* `Problem.message`: their wording.
-/
namespace CodeAtlas

/-- What keeps a request from being answered. -/
inductive Problem where
  /-- A file cannot be read. -/
  | unreadable (reason : ReadError)
  /-- A file is in no known language. -/
  | unsupported (path : String)
  /-- A project cannot be read. -/
  | unreadableRoot (root : String) (reason : ReadError)
  /-- A settings file is faulty. -/
  | faultySettings
  | cancelled
deriving DecidableEq, Inhabited

/-- The words for a problem. -/
def Problem.message : Problem → String
  | unreadable reason => "IO error: " ++ reason.message
  | unsupported path => "Language not supported: " ++ path
  | unreadableRoot root reason => "Project root is not readable: " ++ root ++ ": " ++ reason.message
  | faultySettings => "Config error"
  | cancelled => "Operation cancelled"

end CodeAtlas
