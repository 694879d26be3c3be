import FlowTyping.Source.Lines

/-!
# Files

What a command sees of the files around it, and the errors of reading one.
-/

namespace FlowTyping

/-! ### Looking -/

/-- What is found under a path. -/
inductive Found where
  | file (content : ByteArray)
  | folder
  | missing
  /-- The path leads on from something that is no folder. -/
  | blocked
  /-- The path, or a part of it, is longer than a path or a name can be. -/
  | tooLong

/-- The files around a command: what is found under each path. -/
abbrev Files := String → Found

/-- Why a file cannot be read as a text. -/
inductive ReadError where
  | missing
  | blocked
  | isFolder
  | tooLong
  | notText
deriving DecidableEq, Repr

def ReadError.message : ReadError → String
  | missing => "No such file or directory (os error 2)"
  | blocked => "Not a directory (os error 20)"
  | isFolder => "Is a directory (os error 21)"
  | tooLong => "File name too long (os error 36)"
  | notText => "stream did not contain valid UTF-8"

namespace Files

/-- The text of a file. -/
def read (files : Files) (path : String) : Except ReadError String :=
  match files path with
  | .file content =>
    match String.fromUTF8? content with
    | some text => .ok text
    | none => .error .notText
  | .folder => .error .isFolder
  | .missing => .error .missing
  | .blocked => .error .blocked
  | .tooLong => .error .tooLong

def isFile (files : Files) (path : String) : Bool :=
  match files path with
  | .file _ => true
  | _ => false

/-! ### Paths -/

/-- The parts of a path between slashes. -/
def parts (path : String) : List (List Char) := go path.toList
where
  go : List Char → List (List Char)
    | [] => [[]]
    | c :: cs =>
      if c = '/' then [] :: go cs
      else
        match go cs with
        | part :: rest => (c :: part) :: rest
        | [] => [[c]]

/-- A part of a path that leads nowhere. -/
def isIdle (part : List Char) : Bool := part == [] || part == ['.']

/-- The parts of a path without those at its end that lead nowhere.  The first part stays. -/
def trimParts : List (List Char) → List (List Char)
  | [] => []
  | first :: rest => first :: (rest.reverse.dropWhile isIdle).reverse

/-- The path of a file in the folder of another one. -/
def beside? (path name : String) : Option String :=
  match trimParts (parts path) with
  | [] | [[]] => none
  | [_] => some name
  | steps =>
    let folder := trimParts steps.dropLast
    some ("/".intercalate (folder.map String.ofList ++ [name]))

/-! ### Ways -/

/-- The names of folders to go through from the folder at hand, and of what is reached.  It starts
with parts that lead upward, or with an empty part if it leads down from the root of all folders;
behind those it holds names only. -/
abbrev Way := List (List Char)

namespace Way

/-- The way to the root of all folders. -/
def root : Way := [[]]

/-- A part of a path that leads to the folder around the one reached. -/
def isUpward (part : List Char) : Bool := part == ['.', '.']

/-- The way to the folder around the one that is reached.  The root lies in itself. -/
def up (way : Way) : Way :=
  if way = root then root
  else if way.all isUpward then way ++ [['.', '.']]
  else way.dropLast

/-- Follows one part of a path. -/
def step (way : Way) (part : List Char) : Way :=
  if isIdle part then way else if isUpward part then way.up else way ++ [part]

/-- The ways that are gone through when parts of a path are followed, the last one first. -/
def passed (way : Way) (steps : List (List Char)) : List Way :=
  steps.foldl (fun ways part => (ways.headD way).step part :: ways) [way]

/-- Where a path starts, and the parts to follow from there. -/
def start (path : String) : Way × List (List Char) :=
  match parts path with
  | [] :: part :: rest => (root, part :: rest)
  | steps => ([], steps)

end Way

/-! ### A given set of files -/

/-- The way to a folder, or to a file together with its content. -/
abbrev Entry := Way × Option ByteArray

/-- What a path brings into being when a file is put there: the file and all folders on the way. -/
def entriesOf (path : String) (content : ByteArray) : List Entry :=
  let (start, steps) := Way.start path
  match start.passed steps with
  | way :: folders => (way, some content) :: folders.map (·, none)
  | [] => []

/-- What lies at the end of a way.  The folder at hand and the folders around it are always there. -/
def entryAt (entries : List Entry) (way : Way) : Found :=
  match entries.findSome? fun entry => if entry.1 = way then entry.2 else none with
  | some content => .file content
  | none =>
    if way.all Way.isUpward || entries.any (·.1 == way) then .folder else .missing

/-- The most bytes that a name of a file or folder can have. -/
def nameLimit : Nat := 255

/-- The most bytes that a path can have. -/
def pathLimit : Nat := 4095

/-- Follows parts of a path from what a way leads to. -/
def follow (entries : List Entry) (way : Way) : List (List Char) → Found
  | [] => entryAt entries way
  | part :: rest =>
    match entryAt entries way with
    | .folder =>
      if nameLimit < byteLength part then .tooLong else follow entries (way.step part) rest
    | .file _ => .blocked
    | found => found

/-- Files given by their paths from the folder at hand.  Of two under one path the later one counts.
Besides them there is the file that is always empty. -/
def ofList (contents : List (String × ByteArray)) : Files := fun path =>
  let given := ("/dev/null", .empty) :: contents
  let entries := given.reverse.flatMap fun (path, content) => entriesOf path content
  if path.isEmpty then .missing
  else if pathLimit < path.utf8ByteSize then .tooLong
  else
    let (start, steps) := Way.start path
    follow entries start steps

end Files

end FlowTyping
