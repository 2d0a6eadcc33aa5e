/-!
# Host names in worker names

A worker may be named by its host alone or by a locator of the form
`scheme://host:port/path`, where every part but the host may be missing.
-/

namespace TaskGrid.HostName

/-- What follows the first `://`, or the whole text where there is none. -/
def afterScheme : List Char → List Char
  | s => (go s).getD s
where
  /-- What follows the first `://`, if there is one. -/
  go : List Char → Option (List Char)
    | ':' :: '/' :: '/' :: r => some r
    | _ :: r => go r
    | [] => none

/-- What precedes the first slash. -/
def beforePath (s : List Char) : List Char := s.takeWhile fun c => c ≠ '/'

/-- What precedes the last colon, or the whole text where there is none. -/
def beforePort (s : List Char) : List Char :=
  if ':' ∈ s then ((s.reverse.dropWhile fun c => c ≠ ':').drop 1).reverse else s

/-- The host part of a worker name. -/
def ofName (name : String) : String :=
  String.ofList (beforePort (beforePath (afterScheme name.toList)))

end TaskGrid.HostName
