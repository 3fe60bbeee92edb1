/-
Acatl.DirectoryIterator — `directory_iterator` and `recursive_directory_iterator`
of `detail/posix/filesystem.cpp`, on a file system that does not change.

`directory_iterator` is the stream of a directory: its path, the entry it is at,
and the names that `readdir` has not returned yet; `none` is a closed stream, as
which it is equal to the end. `recursive_directory_iterator` is a stack of them.
-/
import Acatl.FileSystem
import Acatl.Lib.Machine

namespace Acatl.Filesystem

/-- `directory_iterator::impl`. -/
structure DirectoryIterator where
  path : Path
  dirEntry : Path
  dir : Option (List Name)

namespace DirectoryIterator

/-- `*this == directory_iterator{}`. -/
def isEnd (it : DirectoryIterator) : Bool := it.dir.isNone

/-- `readdir`. At the end it closes the stream and clears the error code. -/
def readdir (it : DirectoryIterator) (ec : ErrorCode) : DirectoryIterator × ErrorCode :=
  match it.dir with
  | none => (it, ec)
  | some [] => ({ it with dir := none }, none)
  | some (name :: rest) =>
    ({ it with dirEntry := it.path.append ⟨name⟩, dir := some rest }, ec)

/-- `operator++`. -/
def increment (it : DirectoryIterator) : DirectoryIterator := (it.readdir none).1

/-- `directory_iterator(p, ec)`, which clears the error code only if `p` is an
empty directory. -/
def «open» (fs : FileSystem) (p : Path) (ec : ErrorCode) : DirectoryIterator × ErrorCode :=
  match fs.opendir p.cStr with
  | .error errno => (⟨p, ⟨[]⟩, none⟩, some errno)
  | .ok names => readdir ⟨p, ⟨[]⟩, some names⟩ ec

end DirectoryIterator

/-- `recursive_directory_iterator::impl`, the top of the stack first. -/
structure RecursiveIterator where
  iteratorStack : List DirectoryIterator := []
  followDirectorySymlink : Bool := false
  recursionPending : Bool := true

namespace RecursiveIterator

/-- `open`. -/
def «open» (fs : FileSystem) (p : Path) (it : RecursiveIterator) (ec : ErrorCode) :
    RecursiveIterator × ErrorCode :=
  let (iter, ec) := DirectoryIterator.open fs p ec
  if ec = none then
    ({ it with iteratorStack := if iter.isEnd then it.iteratorStack else iter :: it.iteratorStack },
      ec)
  else (it, ec)

/-- `recursive_directory_iterator(p)`. -/
def construct (fs : FileSystem) (p : Path) : RecursiveIterator := («open» fs p {} none).1

/-- `*this == recursive_directory_iterator()`. -/
def isEnd (it : RecursiveIterator) : Bool := it.iteratorStack.isEmpty

/-- `depth`. -/
def depth (it : RecursiveIterator) : Nat := it.iteratorStack.length

/-- `operator*`, which throws at the end. -/
def current (it : RecursiveIterator) : Option Path := it.iteratorStack.head?.map (·.dirEntry)

/-- `findNextEntry`, with the top of the stack apart. -/
def findNextEntry (top : DirectoryIterator) : List DirectoryIterator → List DirectoryIterator
  | [] => if top.isEnd then [] else [top]
  | next :: rest =>
    if top.isEnd then findNextEntry (if next.isEnd then next else next.increment) rest
    else top :: next :: rest

/-- The condition of `increment` for going into the entry. -/
def descends (fs : FileSystem) (it : RecursiveIterator) (entry : Path) : Bool :=
  it.recursionPending && (status fs entry).1 = .directory &&
    ((symlinkStatus fs entry).1 ≠ .symlink || it.followDirectorySymlink)

/-- `increment(ec)`. -/
def increment (fs : FileSystem) (it : RecursiveIterator) (ec : ErrorCode) :
    RecursiveIterator × ErrorCode :=
  match it.iteratorStack with
  | [] => (it, ec)
  | top :: rest =>
    if it.descends fs top.dirEntry then
      let (iter, ec) := DirectoryIterator.open fs top.dirEntry ec
      if ec = none then ({ it with iteratorStack := findNextEntry iter (top :: rest) }, ec)
      else (it, ec)
    else ({ it with iteratorStack := findNextEntry top.increment rest }, ec)

/-- `pop(ec)`, which leaves the error code as it is. -/
def pop (it : RecursiveIterator) : RecursiveIterator :=
  if it.depth = 0 then {} else { it with iteratorStack := it.iteratorStack.tail }

/-! ## Runs -/

/-- A call, with the error code that the caller passes. -/
inductive Call where
  | increment (ec : ErrorCode)
  | pop
  deriving DecidableEq

/-- The iterator after a call, and the entry it is then at. -/
def calls (fs : FileSystem) : Lib.Machine RecursiveIterator Call (Option Path)
  | it, .increment ec => ((it.increment fs ec).1.current, (it.increment fs ec).1)
  | it, .pop => (it.pop.current, it.pop)

/-- The entries at which an iterator is, from its construction on. -/
def yields (fs : FileSystem) (p : Path) (cs : List Call) : List Path :=
  ((construct fs p).current :: (calls fs).outputs (construct fs p) cs).filterMap id

end RecursiveIterator

end Acatl.Filesystem
