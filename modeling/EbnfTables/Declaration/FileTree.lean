/-!
# File trees

The files that can be read are given as a finite tree below the current directory.  A path is
resolved component by component:

* an empty component and `.` stay where they are, `..` goes up;
* every component but the last must be a directory, and so must whatever a path with a slash at its
  end, or with one of these components there, leads to;
* nothing is known of the directories outside the tree but that they have no other entries.
-/

namespace EbnfTables

/-- Why a file cannot be read as text. -/
inductive ReadError
  | notFound
  | isDirectory
  | notDirectory
  | notText
  deriving DecidableEq

/-- How a read error is told. -/
def ReadError.message : ReadError → String
  | notFound => "No such file or directory (os error 2)"
  | isDirectory => "Is a directory (os error 21)"
  | notDirectory => "Not a directory (os error 20)"
  | notText => "stream did not contain valid UTF-8"

/-- The parts of a path between its slashes. -/
def splitPath : List Char → List (List Char)
  | [] => [[]]
  | c :: cs =>
    if c = '/' then [] :: splitPath cs
    else
      match splitPath cs with
      | [] => [[c]]
      | part :: parts => (c :: part) :: parts

/-- A path that is looked up in a directory: the path itself if it is absolute or the directory has
no name. -/
def joinPath (directory path : String) : String :=
  if path.toList.head? = some '/' ∨ directory = "" then path
  else if directory.toList.getLast? = some '/' then directory ++ path
  else directory ++ "/" ++ path

/-- Files below the current directory, each with its path and its content. -/
structure FileTree where
  files : List (List (List Char) × ByteArray)

namespace FileTree

/-- The tree of files with the given relative paths. -/
def ofFiles (files : List (String × ByteArray)) : FileTree where
  files := files.map fun (path, content) =>
    ((splitPath path.toList).filter fun part => !part.isEmpty && part != ['.'], content)

/-- The content of a file. -/
def content? (t : FileTree) (path : List (List Char)) : Option ByteArray :=
  (t.files.find? fun file => file.1 == path).map Prod.snd

/-- Whether there is a file or a directory of the given path. -/
def contains (t : FileTree) (path : List (List Char)) : Bool :=
  path.isEmpty || t.files.any fun file => path.isPrefixOf file.1

/-- Where a path leads. -/
inductive Place
  /-- Below the current directory. -/
  | inside (path : List (List Char))
  /-- To a directory that is not part of the tree. -/
  | outside

/-- Follows one component of a path. -/
def enter (t : FileTree) (place : Place) (part : List Char) : Except ReadError Place :=
  match place with
  | .outside =>
    if part = [] ∨ part = ['.'] ∨ part = ['.', '.'] then .ok .outside else .error .notFound
  | .inside path =>
    if (t.content? path).isSome then .error .notDirectory
    else if part = [] ∨ part = ['.'] then .ok (.inside path)
    else if part = ['.', '.'] then
      .ok (if path.isEmpty then .outside else .inside path.dropLast)
    else if t.contains (path ++ [part]) then .ok (.inside (path ++ [part]))
    else .error .notFound

/-- Follows the components of a path one after the other. -/
def follow (t : FileTree) : Place → List (List Char) → Except ReadError Place
  | place, [] => .ok place
  | place, part :: parts =>
    match t.enter place part with
    | .error e => .error e
    | .ok next => t.follow next parts

/-- Where a path leads. -/
def resolve (t : FileTree) (path : String) : Except ReadError Place :=
  match splitPath path.toList with
  | [[]] => .error .notFound
  | [] :: parts => t.follow .outside parts
  | parts => t.follow (.inside []) parts

/-- The bytes of the file to which a path leads. -/
def readBytes (t : FileTree) (path : String) : Except ReadError ByteArray :=
  match t.resolve path with
  | .error e => .error e
  | .ok .outside => .error .isDirectory
  | .ok (.inside parts) =>
    match t.content? parts with
    | none => .error .isDirectory
    | some content => .ok content

/-- The text of the file to which a path leads. -/
def readText (t : FileTree) (path : String) : Except ReadError String :=
  match t.readBytes path with
  | .error e => .error e
  | .ok content =>
    match String.fromUTF8? content with
    | none => .error .notText
    | some text => .ok text

end FileTree

end EbnfTables
