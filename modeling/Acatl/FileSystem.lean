/-
Acatl.FileSystem — a file system as POSIX describes it, and the functions of
`detail/posix/filesystem.cpp` on it.

An entry has a location, which is the list of names from the root directory
to it, and a `FileSystem` is a finite tree of such entries. What the system is
given is a string, and `lookup` resolves it: from the root directory or from
the current one, name by name, through `"."`, `".."` and the symbolic links on
the way, of which it follows no more than `symloopMax`. `follow` says whether a
link that is the last name is followed, as for `stat`, or not, as for `lstat`.

A file that is neither a directory nor a symbolic link is a regular one. There
is one process, so that of the permissions of a directory it has three or not.
-/
import Mathlib.Data.List.Nodup
import Acatl.Lib.Pieces
import Acatl.Path

namespace Acatl.Filesystem

open Acatl.Lib

/-! ## §1 Entries -/

abbrev Name := Text

/-- The names from the root directory to an entry. -/
abbrev Location := List Name

def dotName : Name := [Path.dot]
def dotDotName : Name := [Path.dot, Path.dot]

/-- What can be the name of an entry. -/
def ValidName (n : Name) : Prop :=
  n ≠ [] ∧ Path.separator ∉ n ∧ (0 : UInt8) ∉ n ∧ n ≠ dotName ∧ n ≠ dotDotName

instance (n : Name) : Decidable (ValidName n) := inferInstanceAs (Decidable (_ ∧ _))

/-- What the process may do in a directory: list it, look up names in it, and
add and remove them. -/
structure Perms where
  readable : Bool := true
  searchable : Bool := true
  writable : Bool := true
  deriving DecidableEq

inductive Entry where
  | file
  | directory (perms : Perms)
  | symlink (target : Text)
  deriving DecidableEq

def Entry.isDirectory : Entry → Bool
  | .directory _ => true
  | _ => false

/-- `errno`. -/
inductive Errno where
  | ENOENT | ENOTDIR | EACCES | EOVERFLOW | ELOOP | ENOTEMPTY | EBUSY | EINVAL | EEXIST
  deriving DecidableEq

/-- `std::error_code`; `none` is no error. -/
abbrev ErrorCode := Option Errno

/-- The entries, without the root directory, in the order in which `readdir`
returns them. -/
structure FileSystem where
  entries : List (Location × Entry)
  root : Perms
  currentPath : Location
  symloopMax : Nat
  nodup : (entries.map Prod.fst).Nodup
  nonroot : [] ∉ entries.map Prod.fst
  parents : ∀ loc name, loc ++ [name] ∈ entries.map Prod.fst → loc ≠ [] →
    ∃ perms, (loc, .directory perms) ∈ entries
  valid : ∀ loc name, loc ++ [name] ∈ entries.map Prod.fst → ValidName name

/-- Locations of which each one is below a directory of the list. -/
def TreeOfEntries (entries : List (Location × Entry)) : Prop :=
  (entries.map Prod.fst).Nodup ∧ ∀ e ∈ entries, e.1 ≠ [] ∧
    (∀ name ∈ e.1.getLast?, ValidName name) ∧
    (e.1.dropLast = [] ∨ ∃ dir ∈ entries, dir.1 = e.1.dropLast ∧ dir.2.isDirectory = true)

instance (entries : List (Location × Entry)) : Decidable (TreeOfEntries entries) :=
  inferInstanceAs (Decidable (_ ∧ _))

namespace FileSystem

/-- A file system with the given entries. -/
def ofEntries (entries : List (Location × Entry)) (root : Perms) (symloopMax : Nat)
    (h : TreeOfEntries entries) : FileSystem where
  entries := entries
  root := root
  currentPath := []
  symloopMax := symloopMax
  nodup := h.1
  nonroot hmem := by
    obtain ⟨e, he, hnil⟩ := List.mem_map.mp hmem
    exact (h.2 e he).1 hnil
  parents loc name hmem hne := by
    obtain ⟨e, he, hloc⟩ := List.mem_map.mp hmem
    obtain ⟨-, -, hroot | ⟨⟨dir, entry⟩, hdir, hparent, hentry⟩⟩ := h.2 e he
    · simp [hloc, hne] at hroot
    · cases entry with
      | directory perms =>
        have hsame : dir = loc := by simpa [hloc] using hparent
        exact ⟨perms, hsame ▸ hdir⟩
      | file => cases hentry
      | symlink target => cases hentry
  valid loc name hmem := by
    obtain ⟨e, he, hloc⟩ := List.mem_map.mp hmem
    exact (h.2 e he).2.1 name (by simp [hloc])

variable (fs : FileSystem)

def locations : List Location := fs.entries.map Prod.fst

/-- The entry at a location. -/
def find (loc : Location) : Option Entry :=
  if loc = [] then some (.directory fs.root)
  else (fs.entries.find? fun e => e.1 = loc).map Prod.snd

/-- The names in a directory. -/
def children (loc : Location) : List Name :=
  fs.entries.filterMap fun e => if e.1.dropLast = loc then e.1.getLast? else none

/-! ## §2 Resolution of a pathname -/

end FileSystem

/-- The names in a string. -/
def names (text : Text) : List Name := (pieces Path.separator text).filter (· ≠ [])

/-- The names in a string; behind them an empty name, which stands for a
directory, if the string ends with a slash. -/
def components (text : Text) : List Name :=
  names text ++ if text.getLast? = some Path.separator then [[]] else []

namespace FileSystem

variable (fs : FileSystem)

/-- Where the resolution of a string begins, if it is found in a directory. -/
def start (base : Location) (text : Text) : Location :=
  if text.head? = some Path.separator then [] else base

/-- Resolution name by name. `expand` goes on with a link, in its directory. -/
def walkNames (follow : Bool) (expand : Location → Text → List Name → Except Errno Location) :
    Location → List Name → Except Errno Location
  | cur, [] => .ok cur
  | cur, name :: rest =>
    match fs.find cur with
    | none => .error .ENOENT
    | some (.directory perms) =>
      if name = [] then walkNames follow expand cur rest
      else if perms.searchable = false then .error .EACCES
      else if name = dotName then walkNames follow expand cur rest
      else if name = dotDotName then walkNames follow expand cur.dropLast rest
      else
        match fs.find (cur ++ [name]) with
        | none => .error .ENOENT
        | some (.symlink target) =>
          if rest = [] ∧ follow = false then .ok (cur ++ [name]) else expand cur target rest
        | some _ => walkNames follow expand (cur ++ [name]) rest
    | some _ => .error .ENOTDIR

/-- Resolution with so many links still to follow. -/
def walk (follow : Bool) : Nat → Location → List Name → Except Errno Location
  | 0 => fs.walkNames follow fun _ _ _ => .error .ELOOP
  | budget + 1 => fs.walkNames follow fun cur target rest =>
    if target = [] then .error .ENOENT
    else walk follow budget (start cur target) (components target ++ rest)

/-- The location that a string names. -/
def lookup (follow : Bool) (text : Text) : Except Errno Location :=
  if text = [] then .error .ENOENT
  else fs.walk follow fs.symloopMax (start fs.currentPath text) (components text)

/-- `::stat` and `::lstat`. -/
def stat (follow : Bool) (text : Text) : Except Errno Entry :=
  match fs.lookup follow text with
  | .error e => .error e
  | .ok loc =>
    match fs.find loc with
    | none => .error .ENOENT
    | some entry => .ok entry

/-- What `::readdir` returns for a directory, without `"."` and `".."`. -/
def list (loc : Location) : Except Errno (List Name) :=
  match fs.find loc with
  | none => .error .ENOENT
  | some (.directory perms) => if perms.readable then .ok (fs.children loc) else .error .EACCES
  | some _ => .error .ENOTDIR

/-- `::opendir`, with what `::readdir` will return. -/
def opendir (text : Text) : Except Errno (List Name) :=
  match fs.lookup true text with
  | .error e => .error e
  | .ok loc => fs.list loc

section

variable {fs : FileSystem} {loc : Location}

theorem find_eq_some {entry : Entry} (hne : loc ≠ []) :
    fs.find loc = some entry ↔ (loc, entry) ∈ fs.entries := by
  rw [find, if_neg hne]
  refine ⟨fun h => ?_, fun h => ?_⟩
  · obtain ⟨e, he, hentry⟩ := Option.map_eq_some_iff.mp h
    have hloc : e.1 = loc := by simpa using List.find?_some he
    have hmem := List.mem_of_find?_eq_some he
    rwa [← hloc, ← hentry]
  · have hsome : (fs.entries.find? fun e => e.1 = loc).isSome :=
      List.find?_isSome.mpr ⟨_, h, by simp⟩
    obtain ⟨e, he⟩ := Option.isSome_iff_exists.mp hsome
    have hloc : e.1 = loc := by simpa using List.find?_some he
    have heq := List.inj_on_of_nodup_map fs.nodup (List.mem_of_find?_eq_some he) h hloc
    rw [he, heq]
    rfl

theorem find_eq_none (hne : loc ≠ []) : fs.find loc = none ↔ loc ∉ fs.locations := by
  rw [find, if_neg hne, Option.map_eq_none_iff, List.find?_eq_none, locations, List.mem_map]
  constructor
  · intro h hmem
    obtain ⟨e, he, hloc⟩ := hmem
    exact h e he (by simpa using hloc)
  · intro h e he hloc
    exact h ⟨e, he, by simpa using hloc⟩

end

/-! ## §3 Removal -/

theorem mem_children {loc : Location} {name : Name} :
    name ∈ fs.children loc ↔ loc ++ [name] ∈ fs.locations := by
  simp only [children, locations, List.mem_filterMap, List.mem_map]
  refine ⟨fun h => ?_, fun h => ?_⟩
  · obtain ⟨e, he, hif⟩ := h
    split at hif
    · rename_i hloc
      refine ⟨e, he, ?_⟩
      have hlast := List.dropLast_append_getLast? name hif
      rw [← hlast, hloc]
    · cases hif
  · obtain ⟨e, he, hloc⟩ := h
    exact ⟨e, he, by simp [hloc]⟩

/-- The file system without an entry that has nothing below it. -/
def erase (loc : Location) (h : fs.children loc = []) : FileSystem where
  entries := fs.entries.filter fun e => e.1 ≠ loc
  root := fs.root
  currentPath := fs.currentPath
  symloopMax := fs.symloopMax
  nodup := by
    refine List.Nodup.sublist ?_ fs.nodup
    exact List.Sublist.map _ List.filter_sublist
  nonroot hroot := fs.nonroot ((List.Sublist.map _ List.filter_sublist).subset hroot)
  parents dir name hname hdir := by
    have hmem := (List.Sublist.map _ List.filter_sublist).subset hname
    obtain ⟨perms, hperms⟩ := fs.parents dir name hmem hdir
    refine ⟨perms, List.mem_filter.mpr ⟨hperms, ?_⟩⟩
    have hne : dir ≠ loc := by
      intro heq
      have hchild := fs.mem_children.mpr (heq ▸ hmem)
      rw [h] at hchild
      cases hchild
    simpa using hne
  valid dir name hname :=
    fs.valid dir name ((List.Sublist.map _ List.filter_sublist).subset hname)

/-- `::remove`: `::unlink`, or `::rmdir` for a directory. -/
def remove (text : Text) : Except Errno FileSystem :=
  match (names text).getLast? with
  | none => .error (if text = [] then .ENOENT else .EBUSY)
  | some name =>
    if name = dotName then .error .EINVAL
    else if name = dotDotName then .error .ENOTEMPTY
    else
      match fs.walk false fs.symloopMax (start fs.currentPath text) (names text) with
      | .error e => .error e
      | .ok loc =>
        match fs.find loc, fs.find loc.dropLast with
        | some entry, some (.directory perms) =>
          if text.getLast? = some Path.separator ∧ entry.isDirectory = false then
            .error .ENOTDIR
          else if perms.writable = false then .error .EACCES
          else if h : fs.children loc = [] then .ok (fs.erase loc h)
          else .error .ENOTEMPTY
        | _, _ => .error .ENOENT

/-! ## §4 Creation -/

/-- The file system with a new directory. -/
def insert (dir : Location) (name : Name) (granted : Perms) (hname : ValidName name)
    (hdir : ∃ perms, fs.find dir = some (.directory perms))
    (hnew : fs.find (dir ++ [name]) = none) : FileSystem where
  entries := fs.entries ++ [(dir ++ [name], .directory granted)]
  root := fs.root
  currentPath := fs.currentPath
  symloopMax := fs.symloopMax
  nodup := by
    have hnotMem : dir ++ [name] ∉ fs.entries.map Prod.fst := (find_eq_none (by simp)).mp hnew
    rw [List.map_append, List.map_singleton, ← List.concat_eq_append]
    exact fs.nodup.concat hnotMem
  nonroot hroot := by
    rw [List.map_append, List.mem_append] at hroot
    rcases hroot with hroot | hroot
    · exact fs.nonroot hroot
    · simp at hroot
  parents loc n hmem hne := by
    rw [List.map_append, List.mem_append] at hmem
    rcases hmem with hmem | hmem
    · obtain ⟨perms, hperms⟩ := fs.parents loc n hmem hne
      exact ⟨perms, List.mem_append_left _ hperms⟩
    · obtain ⟨rfl, -⟩ : loc = dir ∧ n = name := by simpa using hmem
      obtain ⟨perms, hperms⟩ := hdir
      exact ⟨perms, List.mem_append_left _ ((find_eq_some hne).mp hperms)⟩
  valid loc n hmem := by
    rw [List.map_append, List.mem_append] at hmem
    rcases hmem with hmem | hmem
    · exact fs.valid loc n hmem
    · obtain ⟨-, rfl⟩ : loc = dir ∧ n = name := by simpa using hmem
      exact hname

/-- `::mkdir`. The permissions are what the file mode creation mask leaves of
those that are asked for. -/
def mkdir (granted : Perms) (text : Text) : Except Errno FileSystem :=
  match (names text).getLast? with
  | none => .error (if text = [] then .ENOENT else .EEXIST)
  | some name =>
    match fs.walk true fs.symloopMax (start fs.currentPath text) (names text).dropLast with
    | .error e => .error e
    | .ok dir =>
      match hdir : fs.find dir with
      | none => .error .ENOENT
      | some (.directory perms) =>
        if perms.searchable = false then .error .EACCES
        else if hname : ValidName name then
          if hnew : fs.find (dir ++ [name]) = none then
            if perms.writable = false then .error .EACCES
            else .ok (fs.insert dir name granted hname ⟨perms, hdir⟩ hnew)
          else .error .EEXIST
        else .error .EEXIST -- `"."` or `".."`, which are in every directory
      | some _ => .error .ENOTDIR

end FileSystem

/-! ## §5 filesystem.cpp -/

/-- `file_type`, as far as `setStatus` and its callers go here. -/
inductive FileType where
  | none | notFound | regular | directory | symlink | unknown
  deriving DecidableEq

/-- `setStatus`. -/
def FileType.ofEntry : Entry → FileType
  | .file => .regular
  | .directory _ => .directory
  | .symlink _ => .symlink

/-- The `file_type` of a failed `::stat` or `::lstat`. -/
def FileType.ofErrno (errno : Errno) : FileType :=
  if errno = .ENOENT ∨ errno = .ENOTDIR then .notFound
  else if errno = .EACCES ∨ errno = .EOVERFLOW then .unknown
  else .none

/-- `exists(file_status)`. -/
def FileType.exists (type : FileType) : Bool := type ≠ .none && type ≠ .notFound

section

variable (fs : FileSystem) (p : Path)

/-- The file status of what `::stat` or `::lstat` has returned, and the error
code. -/
def fileStatus (result : Except Errno Entry) : FileType × ErrorCode :=
  match result with
  | .ok entry => (.ofEntry entry, none)
  | .error errno => (.ofErrno errno, some errno)

/-- `status(p, ec)`. -/
def status : FileType × ErrorCode := fileStatus (fs.stat true p.cStr)

/-- `symlink_status(p, ec)`. -/
def symlinkStatus : FileType × ErrorCode := fileStatus (fs.stat false p.cStr)

/-- `is_directory(p)`, which throws if there is no status. -/
def isDirectory : Option Bool :=
  if (status fs p).1 = .none then none else some ((status fs p).1 = .directory)

/-- `remove(p, ec)`. -/
def remove : Bool × ErrorCode × FileSystem :=
  let st := symlinkStatus fs p
  if st.1.exists then
    match fs.remove p.cStr with
    | .error errno => (false, some errno, fs)
    | .ok fs' => (true, st.2, fs')
  else (false, st.2, fs)

/-- How a function ends that is `noexcept`: with its result and the error code,
or with the program, when something throws that it calls. -/
inductive Result where
  | returned (result : Bool) (ec : ErrorCode)
  | terminated
  deriving DecidableEq

/-- `create_directory(p, ec)`. It leaves the error code as it is when it
succeeds. -/
def createDirectory (granted : Perms) (ec : ErrorCode) : Result × FileSystem :=
  if p.path = [] then (.returned false (some .ENOTDIR), fs)
  else
    match isDirectory fs p.parentPath with
    | none => (.terminated, fs)
    | some false => (.returned false (some .ENOTDIR), fs)
    | some true =>
      let s := (status fs p).1
      if s.exists ∧ s ≠ .directory then (.returned false (some .ENOTDIR), fs)
      else
        match fs.mkdir granted p.cStr with
        | .ok fs' => (.returned true ec, fs')
        | .error .EEXIST => (.returned true ec, fs)
        | .error errno => (.returned false (some errno), fs)

end

end Acatl.Filesystem
