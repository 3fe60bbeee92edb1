/-
Acatl.Path — `path` of `filesystem.h`, its iterators and its decomposition.

An iterator points to its path, and has a position in the string and an
element of its own. Two iterators of one path are equal if their positions
are: `end()` has an empty element, and an iterator that `++` has moved to the
end still has the last element of the path.

The scanners of `begin` and `++` run up to the NUL at the end of the string,
those of `--` down to its beginning. Where the source would leave the string,
or `at` throws, there is no result.
-/
import Acatl.Text

namespace Acatl

/-- `path`. -/
structure Path where
  path : Text
  deriving DecidableEq

namespace Path

/-- `path::_separator`, which is `'/'`. -/
def separator : UInt8 := 47

/-- `path::_dot`, which is `'.'`. -/
def dot : UInt8 := 46

/-- `c_str`, which for its users ends with the first NUL. -/
def cStr (p : Path) : Text := p.path.takeWhile (· ≠ 0)

/-- `operator/=`. -/
def append (p q : Path) : Path :=
  if p.path = [] ∨ q.path.head? = some separator ∨ p.path.getLast? = some separator ∨ q.path = []
  then ⟨p.path ++ q.path⟩
  else ⟨p.path ++ [separator] ++ q.path⟩

/-- `path::iterator`; a position `none` is `npos`. -/
structure Iterator where
  pos : Option Nat
  element : Text
  deriving DecidableEq

namespace Iterator

/-- `operator==`, for iterators of the same path. -/
def equal (a b : Iterator) : Bool := a.pos = b.pos

end Iterator

variable (p : Path)

/-- `while(*s != '\0' && *s == _separator) ++s;` -/
def skipSeparators (s : Nat) : Nat :=
  s + ((p.path.drop s).takeWhile fun c => c ≠ 0 ∧ c = separator).length

/-- `while(*s != '\0' && *s != _separator) ++s;` -/
def skipName (s : Nat) : Nat :=
  s + ((p.path.drop s).takeWhile fun c => c ≠ 0 ∧ c ≠ separator).length

/-- `while(s != begin && cond(*s)) --s;` -/
def backWhile (cond : UInt8 → Bool) : Nat → Nat
  | 0 => 0
  | s + 1 => if cond (p.path.charAt (s + 1)) then backWhile cond s else s + 1

/-- `begin`. -/
def begin : Iterator :=
  if p.path = [] then ⟨none, []⟩
  else
    let s := p.skipSeparators 0
    if ¬ (s = 2 ∧ p.path.charAt s ≠ 0) ∧ (s = 1 ∨ 2 < s) then ⟨some 1, [separator]⟩
    else
      let dist := p.skipName s
      ⟨some dist, p.path.substr 0 dist⟩

/-- `end`. -/
def «end» (_ : Path) : Iterator := ⟨none, []⟩

/-- `operator++`. -/
def increment (it : Iterator) : Option Iterator :=
  match it.pos with
  | none => none
  | some pos =>
    if p.path.charAt pos = 0 then some { it with pos := none }
    else
      let begin := p.skipSeparators pos
      if p.path.charAt begin = 0 then some ⟨some begin, [dot]⟩
      else
        let s := p.skipName begin
        some ⟨some s, p.path.substr begin (s - begin)⟩

/-- `operator--`, from `const char* begin` on, with the end of the element that
is left behind. -/
def scanBack (s : Nat) : Iterator :=
  let tail := s
  let s := p.backWhile (· = separator) (s - 1)
  -- `end -= dist` with the separators behind `s`
  let tail := tail - (tail - s - 1)
  if s = 0 then ⟨some 1, [separator]⟩
  else
    let s := p.backWhile (· ≠ separator) s
    let tmp := if p.path.charAt s = separator then s + 1 else s
    let s := p.backWhile (· = separator) s
    let tmp := if tmp - s = 2 ∧ s = 0 then s else tmp
    ⟨some tail, p.path.substr tmp (tail - tmp)⟩

/-- `operator--`. -/
def decrement (it : Iterator) : Option Iterator :=
  match it.pos with
  | none =>
    match p.path.getLast? with
    | none => none
    | some c =>
      if c = separator then
        if 1 < p.path.length then some ⟨some p.path.length, [dot]⟩
        else some ⟨some 1, [separator]⟩
      else some (p.scanBack p.path.length)
  | some pos =>
    if it.element.length < pos then some (p.scanBack (pos - it.element.length)) else none

/-! ## Parts of a path -/

/-- `path{s}`, for a pointer into the string: it ends with the first NUL. -/
def fromPointer (s : Nat) : Path := ⟨(p.path.drop s).takeWhile (· ≠ 0)⟩

/-- `root_name`. -/
def rootName : Path :=
  if p.path = [] then ⟨[]⟩
  else
    let s := p.skipSeparators 0
    if s = 2 then ⟨p.path.substr 0 (p.skipName s)⟩ else ⟨[]⟩

/-- `root_directory`. -/
def rootDirectory : Path :=
  if p.path.head? = some separator then
    let root := p.rootName
    if root.path = [] ∨ root.path.length < p.path.length then ⟨[separator]⟩ else ⟨[]⟩
  else ⟨[]⟩

/-- `root_path`. -/
def rootPath : Path := p.rootName.append p.rootDirectory

/-- `relative_path`. Behind a root name it skips one separator only. -/
def relativePath : Path :=
  if p.path = [] then ⟨[]⟩
  else if p.path.head? = some separator then
    let s := p.skipSeparators 0
    if s = 2 then
      let s := p.skipName s
      p.fromPointer (if p.path.charAt s = separator then s + 1 else s)
    else p.fromPointer s
  else p

/-- `parent_path`. -/
def parentPath : Path :=
  if p.path = [] then ⟨[]⟩
  else
    let s := p.path.length - 1
    if 0 < s then
      let sepStart := p.backWhile (· ≠ separator) s
      let s := p.backWhile (· = separator) sepStart
      if 0 < s then ⟨p.path.substr 0 (s + 1)⟩
      else if p.path.charAt s = separator ∧ sepStart - s = 0 then ⟨[separator]⟩
      else ⟨[]⟩
    else ⟨[]⟩

/-- `filename`. -/
def filename : Path :=
  if p.path = [] then ⟨[]⟩
  else if p.path = [separator] then p
  else
    let s := p.path.length - 1
    if p.path.charAt s = separator then ⟨[dot]⟩
    else
      let s := p.backWhile (· ≠ separator) s
      if (p.path.charAt s = separator ∧ s = 1) ∧ p.path.charAt (s - 1) = separator then
        p.fromPointer 0
      else if p.path.charAt s ≠ separator ∧ s = 0 then p.fromPointer 0
      else p.fromPointer (s + 1)

/-- What `stem` and `extension` do with a file name: they look for its last dot,
but not in `"."` and `".."`. -/
def findDot : Option Nat :=
  if p.path = [] then none
  else
    let s := p.path.length - 1
    if (s = 0 ∧ p.path.charAt s = dot) ∨
        (s = 1 ∧ p.path.charAt s = dot ∧ p.path.charAt (s - 1) = dot) then none
    else
      let s := p.backWhile (· ≠ dot) s
      if p.path.charAt s = dot then some s else none

/-- `stem`. A name without a dot has none. -/
def stem : Path :=
  match p.filename.findDot with
  | some s => ⟨p.filename.path.substr 0 s⟩
  | none => ⟨[]⟩

/-- `extension`. -/
def extension : Path :=
  match p.filename.findDot with
  | some s => p.filename.fromPointer s
  | none => ⟨[]⟩

/-- `replace_extension`. -/
def replaceExtension (replacement : Path) : Path :=
  let path :=
    if p.extension.path ≠ [] then p.path.substr 0 (p.path.length - p.extension.path.length)
    else p.path
  if replacement.path = [] then ⟨path⟩
  else if replacement.path.charAt 0 ≠ dot then ⟨path ++ [dot] ++ replacement.path⟩
  else ⟨path ++ replacement.path⟩

end Path

end Acatl
