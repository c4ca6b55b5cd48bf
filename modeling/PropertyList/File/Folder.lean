import PropertyList.File.Document

/-!
# Folders in memory

A folder holds files and other folders. It is filled from the empty folder by making folders and
writing files: a file that is written again has the contents of the last time. Looking a path up in
it follows the rules by which paths are resolved: the path is walked name by name from the folder,
a dot stays where it is and two dots go back, and every name but the last is that of a folder.
Nothing is known of what is outside the folder.

## Main definitions

* `Folder`, `Folder.makeFolder`, `Folder.write` : what is in a folder and how it comes there.
* `Folder.read` : the contents of a file in it.
-/

namespace PropertyList

/-- The names that lead to a file or a folder. -/
abbrev Route := List Bytes

/-- The files of a folder with their contents, and the folders in it, at any depth. -/
structure Folder where
  files : List (Route × Bytes)
  folders : List Route

namespace Folder

/-- The greatest number of bytes in a name and in a path. -/
def nameLimit : Nat := 255

@[inherit_doc nameLimit]
def pathLimit : Nat := 4095

/-- The parts of a path between slashes. -/
def split : Bytes → List Bytes
  | [] => [[]]
  | b :: bytes =>
    if b = 0x2F then [] :: split bytes
    else
      match split bytes with
      | part :: parts => (b :: part) :: parts
      | [] => [[b]]

/-- The folder with nothing in it. -/
def empty : Folder :=
  ⟨[], []⟩

/-- The names from the folder to what a path in it names. -/
def route (path : Bytes) : Route :=
  ((split path).foldl (fun reversed part =>
    if part = [] ∨ part = [0x2E] then reversed
    else if part = [0x2E, 0x2E] then reversed.tail
    else part :: reversed) []).reverse

/-- The routes that begin a route, from the shortest on, without the empty one. -/
def stages (route : Route) : List Route :=
  (List.range route.length).map fun n => route.take (n + 1)

/-- Adds the folders along a route that are not there yet. -/
def reach (folder : Folder) (route : Route) : Folder :=
  { folder with
    folders := folder.folders ++ (stages route).filter (!folder.folders.contains ·) }

/-- Makes the folder with a path, and with it the folders on the way to it. -/
def makeFolder (folder : Folder) (path : Bytes) : Folder :=
  folder.reach (route path)

/-- Writes a file with a path, in the place of what an earlier writing left there. -/
def write (folder : Folder) (path contents : Bytes) : Folder :=
  let folder := folder.reach (route path).dropLast
  { folder with
    files := (route path, contents) :: folder.files.filter (·.1 != route path) }

/-- A place on the way along a path. -/
inductive Place where
  /-- The folder itself, or a folder in it, by the names that lead there in reverse order. -/
  | inside (reversed : Route)
  /-- A folder outside of it. -/
  | outside

/-- Goes one part of a path further. -/
def enter (folder : Folder) (place : Place) (part : Bytes) (rest : List Bytes) :
    Except SystemError (Place ⊕ Bytes) :=
  match place with
  | .outside =>
    if part = [] ∨ part = [0x2E] ∨ part = [0x2E, 0x2E] then .ok (.inl .outside)
    else .error (if nameLimit < part.length then .nameTooLong else .noEntry)
  | .inside reversed =>
    if part = [] ∨ part = [0x2E] then .ok (.inl place)
    else if part = [0x2E, 0x2E] then
      .ok (.inl (match reversed with
        | [] => .outside
        | _ :: reversed => .inside reversed))
    else if nameLimit < part.length then .error .nameTooLong
    else if folder.folders.contains (part :: reversed).reverse then
      .ok (.inl (.inside (part :: reversed)))
    else
      match folder.files.lookup (part :: reversed).reverse with
      | none => .error .noEntry
      | some contents => if rest.isEmpty then .ok (.inr contents) else .error .notDirectory

/-- Follows the parts of a path. -/
def follow (folder : Folder) (place : Place) : List Bytes → Except SystemError Bytes
  | [] => .error .isDirectory
  | part :: parts =>
    match folder.enter place part parts with
    | .error reason => .error reason
    | .ok (.inl place) => folder.follow place parts
    | .ok (.inr contents) => .ok contents

/-- The contents of the file with a path. -/
def read (folder : Folder) : FileReader := fun path =>
  let bytes := path.encode
  if bytes = [] then .error .noEntry
  else if pathLimit < bytes.length then .error .nameTooLong
  else
    folder.follow (if bytes.head? = some 0x2F then .outside else .inside []) (split bytes)

end Folder

end PropertyList
