import Inspector.Streams.Connections

/-! # The mounts of the virtual file system

The mounts of `vfs.c` are the nodes of a linked list that begins with the root, which is allocated
statically. A call has no result when a pointer to no object is followed, a text is copied to where
it does not fit, or the root is freed. Events, times and `vfs_errno` are left out.
-/

namespace Inspector

namespace Vfs

open Streams (Allocator)

/-- `VFS_MOUNT_PATH_LEN`. -/
def mountPathLen : ℕ := 33

/-- `VFS_CWD_LENGTH`. -/
def cwdLength : ℕ := 100

/-- `vfs_st_mode_t`. -/
structure Mode where
  readOnly : Bool := false
  hidden : Bool := false
  system : Bool := false
  directory : Bool := false
  archive : Bool := false
  deriving DecidableEq, Repr

/-- `vfs_mount_t`. -/
structure Mount (F : Type*) where
  path : List Char := []
  vfs : Option F := none
  mode : Mode := {}
  next : Option ℕ := none

/-- The mounts, the root at address zero, and those allocated; the current directory and the size of
the buffer for `abspath`, which is zero when there is none. -/
structure State (F : Type*) where
  nodes : ℕ → Mount F
  allocated : List ℕ := []
  cwdmount : ℕ := 0
  cwd : List Char := ['/']
  maxlen : ℕ := 0

/-- How the root is mounted without a file system. -/
def rootMode : Mode := { directory := true, readOnly := true, hidden := true }

/-- The state at first. -/
def State.init {F : Type*} (fsNull : F) : State F where
  nodes := Function.update (fun _ => {}) 0 { path := ['/'], vfs := some fsNull, mode := rootMode }

/-- A path with a separator at its end. -/
def normal (path : List Char) : List Char :=
  if path.getLast? = some '/' then path else path ++ ['/']

/-- The elements that `strtok` finds, behind a part of one. -/
def elements : List Char → List Char → List (List Char)
  | el, [] => if el = [] then [] else [el]
  | el, c :: cs =>
    if c = '/' then if el = [] then elements [] cs else el :: elements [] cs
    else elements (el ++ [c]) cs

/-- What `strrchr` finds in front of a separator, and the separator. -/
def upToLast (abspath : List Char) : List Char :=
  (abspath.reverse.dropWhile fun c => c ≠ '/').reverse

/-- `..` takes an element away. -/
def up (abspath : List Char) : List Char :=
  if upToLast abspath = [] then abspath
  else if (upToLast abspath).length = 1 then upToLast abspath
  else (upToLast abspath).dropLast

/-- What an element does to `abspath`. -/
def walk (abspath el : List Char) : List Char :=
  if el = ['.', '.'] then up abspath
  else if el = ['.'] then abspath
  else if abspath.length = 1 then abspath ++ el
  else abspath ++ '/' :: el

namespace State

variable {F : Type*} (fsNull : F) (alloc : Allocator) (s : State F)

def next (i : ℕ) : Option ℕ := (s.nodes i).next

def path (i : ℕ) : List Char := (s.nodes i).path

def setNode (i : ℕ) (f : Mount F → Mount F) : State F :=
  { s with nodes := Function.update s.nodes i (f (s.nodes i)) }

def setNext (i : ℕ) (v : Option ℕ) : State F := s.setNode i fun n => { n with next := v }

/-- The root gets a file system. -/
def setRoot (vfs : Option F) (mode : Mode) : State F :=
  s.setNode 0 fun n => { n with vfs := vfs, mode := mode }

/-- The bound on the steps of a loop over the mounts. -/
def bound : ℕ := s.allocated.length + 1

/-- The loops that look for a mount behind the root. -/
def find (p : ℕ → Bool) : Option (Option ℕ) :=
  (Linked.search s.next p s.bound none (s.next 0)).map fun found => found.map Prod.snd

/-- A path is that of a mount without the separator at its end. -/
def isDir (path : List Char) (mount : ℕ) : Bool :=
  (s.path mount).length - 1 = path.length ∧
    (s.path mount).take ((s.path mount).length - 1) = path.take ((s.path mount).length - 1)

/-- The path of a mount begins another one. -/
def begins (path : List Char) (mount : ℕ) : Bool :=
  (s.path mount).take (s.path mount).length = path.take (s.path mount).length

/-- `path_is_mount_dir`. -/
def pathIsMountDir (path : List Char) : Option (Option ℕ) :=
  if path = ['/'] then some (some 0) else s.find (s.isDir path)

/-- `get_mount`. -/
def getMount (path : List Char) : Option ℕ :=
  if path.head? = some '/' then
    (s.pathIsMountDir path).bind fun
    | some mount => some mount
    | none => (s.find (s.begins path)).map fun mount => mount.getD 0
  else some s.cwdmount

/-- `get_filename`. -/
def getFilename (mount : ℕ) (filename : List Char) : List Char :=
  if filename.head? = some '/' then
    filename.drop (if (s.path mount).length = 1 then 0 else (s.path mount).length - 1)
  else filename

/-- There is a buffer for `abspath`; it is allocated when it is too short. -/
def available (path : List Char) (realloc : Bool) : Bool :=
  realloc || s.cwd.length + path.length + 2 ≤ s.maxlen

/-- The size of the buffer when there is one. -/
def grown (path : List Char) : ℕ :=
  if s.maxlen < s.cwd.length + path.length + 2 then
    max cwdLength (s.cwd.length + path.length + 2)
  else s.maxlen

/-- What is in `abspath` at the end of `parse_path`. -/
def abspath (path : List Char) : List Char :=
  (elements [] path).foldl walk (if path.head? = some '/' then ['/'] else s.cwd)

/-- `parse_path`; the path is copied to a buffer of its own first. -/
def parsePath (path : List Char) (realloc : Bool) : Option (List Char × State F) :=
  if s.available path realloc then
    if path.length < cwdLength then some (s.abspath path, { s with maxlen := s.grown path })
    else none
  else some (path, { s with maxlen := 0 })

/-- `vfs_chdir`: whether the file system of the mount accepts the directory is asked of it. -/
def vfsChdir (path : List Char) (realloc : Bool) (accepts : F → List Char → Bool) :
    Option (State F) :=
  (s.parsePath path realloc).bind fun (path, s) =>
    (s.getMount path).bind fun mount =>
      (s.nodes mount).vfs.bind fun vfs =>
        if accepts vfs (s.getFilename mount path) then
          if path.length < cwdLength then some { s with cwd := path, cwdmount := mount }
          else none
        else some s

/-- The path of a new mount, if it fits. -/
def mountPath (path : List Char) : Option (List Char) :=
  if path ≠ [] ∧ (normal path).length < mountPathLen then some (normal path) else none

/-- A new mount is put behind the last one. -/
def link (mount lmount : ℕ) (path : List Char) (vfs : Option F) (mode : Mode) : State F :=
  (({ s with allocated := mount :: s.allocated } : State F).setNode mount
    fun _ => { path := path, vfs := vfs, mode := mode }).setNext lmount (some mount)

/-- `vfs_mount`, where `calloc` may fail. -/
def vfsMount (path : List Char) (vfs : Option F) (mode : Mode) (calloc : Bool) :
    Option (State F) :=
  if path = ['/'] then some (s.setRoot vfs mode)
  else if calloc then
    (mountPath path).bind fun path =>
      (Linked.seek s.next (fun _ => false) s.bound 0).map fun lmount =>
        s.link (alloc.malloc (0 :: s.allocated)) lmount path vfs mode
  else some s

/-- The current directory is left when its mount is taken out. -/
def leave (mount : ℕ) : State F :=
  if mount = s.cwdmount then { s with cwdmount := 0, cwd := ['/'] } else s

/-- A mount is taken out behind another one. -/
def unlink (mount pmount : ℕ) : State F :=
  if s.next pmount = some mount then s.setNext pmount (s.next mount) else s

/-- `free`, of what has been allocated. -/
def free (mount : ℕ) : Option (State F) :=
  if mount ∈ s.allocated then some { s with allocated := s.allocated.erase mount } else none

/-- The root loses its file system. -/
def resetRoot : State F :=
  if s.cwdmount = 0 then { s.setRoot (some fsNull) rootMode with cwd := ['/'] }
  else s.setRoot (some fsNull) rootMode

/-- A mount is left, taken out of the list and freed. -/
def remove (mount : ℕ) : Option (State F) :=
  (Linked.seek (s.leave mount).next (fun i => i = mount) (s.leave mount).bound 0).bind fun pmount =>
    ((s.leave mount).unlink mount pmount).free mount

/-- `vfs_unmount`. -/
def vfsUnmount (path : List Char) : Option (State F) :=
  if path = ['/'] then some (s.resetRoot fsNull)
  else (s.getMount path).bind s.remove

end State

/-- The calls, with what they are told by the allocator and the file systems. -/
inductive Op (F : Type*)
  | mount (path : List Char) (vfs : Option F) (mode : Mode) (calloc : Bool)
  | unmount (path : List Char)
  | chdir (path : List Char) (realloc : Bool) (accepts : F → List Char → Bool)

variable {F : Type*} (fsNull : F) (alloc : Allocator)

/-- A call; none when an earlier one had no result. -/
def exec (s : Option (State F)) : Op F → Option (State F)
  | .mount path vfs mode calloc => s.bind fun s => s.vfsMount alloc path vfs mode calloc
  | .unmount path => s.bind fun s => s.vfsUnmount fsNull path
  | .chdir path realloc accepts => s.bind fun s => s.vfsChdir path realloc accepts

end Vfs

end Inspector
