/-
Acatl.Net.DocumentRoot — which file the HTTP server sends
(`examples/http_server/connection.h`).

The path of a URL is made relative and given to `canonical` with the document
root as the base. Nothing else keeps the result below the document root, so it
depends on the path and on the links there are whether it is.

  §1  `filePath`;
  §2  names that do not climb above where they begin (`Stays`);
  §3  `served_below_root`.
-/
import Acatl.Canonical

namespace Acatl.Net

open Acatl.Lib Acatl.Filesystem Acatl.Filesystem.FileSystem

/-! ## §1 The file -/

/-- `filePath` of `onMessageComplete`, for the path of the URL. -/
def filePath (fs : FileSystem) (rootPath : Path) (url : Text) : Option (Path × ErrorCode) :=
  canonical fs (Path.mk url).relativePath rootPath none

/-! ## §2 Names that do not climb -/

/-- From `depth` directories down, the names never lead above the first one. -/
def Stays : Nat → List Name → Prop
  | _, [] => True
  | depth, name :: rest =>
    if name = [] ∨ name = dotName then Stays depth rest
    else if name = dotDotName then 0 < depth ∧ Stays (depth - 1) rest
    else Stays (depth + 1) rest

instance instDecidableStays : ∀ (depth : Nat) (ns : List Name), Decidable (Stays depth ns)
  | _, [] => inferInstanceAs (Decidable True)
  | depth, name :: rest =>
    have := instDecidableStays depth rest
    have := instDecidableStays (depth - 1) rest
    have := instDecidableStays (depth + 1) rest
    inferInstanceAs (Decidable (if name = [] ∨ name = dotName then Stays depth rest
      else if name = dotDotName then 0 < depth ∧ Stays (depth - 1) rest
      else Stays (depth + 1) rest))

section

variable {fs : FileSystem} {root loc : Location} {ns : List Name}

/-- Below a directory where there are no links, names that do not climb lead to
where they would lead from the root directory of a file system of its own. -/
theorem resolves_below (hlinks : ∀ rel target, fs.find (root ++ rel) ≠ some (.symlink target))
    {follow : Bool} {budget : Nat} {cur rel : Location}
    (h : Resolves fs follow budget cur ns loc) (hcur : cur = root ++ rel)
    (hstays : Stays rel.length ns) : loc = root ++ ns.foldl goTo rel := by
  induction h generalizing rel with
  | done budget cur => exact hcur
  | slash hdir h ih =>
    rw [List.foldl_cons, goTo, if_pos (.inl rfl)]
    exact ih hcur (by simpa [Stays] using hstays)
  | dot hdir hsearch h ih =>
    rw [List.foldl_cons, goTo, if_pos (.inr rfl)]
    exact ih hcur (by simpa [Stays] using hstays)
  | dotDot hdir hsearch h ih =>
    have hnot : ¬ (dotDotName = [] ∨ dotDotName = dotName) := by decide
    rw [Stays, if_neg hnot, if_pos rfl] at hstays
    rw [List.foldl_cons, goTo, if_neg hnot, if_pos rfl]
    -- there is a directory to leave
    have hnil : rel ≠ [] := List.ne_nil_of_length_pos hstays.1
    refine ih ?_ ?_
    · rw [hcur, List.dropLast_append_of_ne_nil hnil]
    · rw [List.length_dropLast]
      exact hstays.2
  | entry hdir hsearch hname hfound hlink h ih =>
    obtain ⟨hnil, hdot, hdotDot⟩ := hname
    rw [Stays, if_neg (by simp [hnil, hdot]), if_neg hdotDot] at hstays
    rw [List.foldl_cons, goTo, if_neg (by simp [hnil, hdot]), if_neg hdotDot]
    refine ih ?_ ?_
    · rw [hcur, List.append_assoc]
    · simpa using hstays
  | last budget hdir hsearch hname hfound hfollow =>
    rw [hcur, List.append_assoc] at hfound
    exact absurd hfound (hlinks _ _)
  | link hdir hsearch hname hfound hlast htarget h ih =>
    rw [hcur, List.append_assoc] at hfound
    exact absurd hfound (hlinks _ _)

/-! ## §3 What is served -/

variable {b p : Path}

/-- The names of two paths behind one another. -/
theorem names_append_path (hb : b.path ≠ []) (hnul : (0 : UInt8) ∉ b.path)
    (hp : p.path.head? ≠ some Path.separator) :
    names (b.append p).cStr = names b.path ++ names p.cStr := by
  by_cases hempty : p.path = []
  · have happend : b.append p = ⟨b.path ++ p.path⟩ := by simp [Path.append, hempty]
    have hp' : p.cStr = [] := by simp [Path.cStr, hempty]
    rw [happend, cStr_behind hnul, hp', List.append_nil, show names [] = [] from rfl, List.append_nil]
  obtain ⟨front, hpath, hfront, -, hnames⟩ := append_front hb hempty hp
  have hcStr : (b.append p).cStr = front ++ p.cStr := by
    rw [← cStr_behind (hfront hnul), Path.cStr, Path.cStr, hpath]
  rw [hcStr, hnames]

/-- **What is served is below the document root**, at the place that the names in
the path of the URL give, if those do not climb above it, the path is relative
when its root is taken off, and there are no links below the document root. What
else there is in the file system does not matter. -/
theorem served_below_root {rootPath c : Path} {url : Text}
    (hb : Path.absolute (currentPath fs) 2 rootPath (currentPath fs) = some b)
    (hnul : (0 : UInt8) ∉ b.path) (hroot : fs.lookup true b.cStr = .ok root)
    (hlinks : ∀ rel target, fs.find (root ++ rel) ≠ some (.symlink target))
    (hrelative : (Path.mk url).relativePath.path.head? ≠ some Path.separator)
    (hstays : Stays 0 (names (Path.mk url).relativePath.cStr))
    (h : filePath fs rootPath url = some (c, none)) :
    c = ⟨pathname (root ++ (names (Path.mk url).relativePath.cStr).foldl goTo [])⟩ := by
  rw [filePath] at h
  generalize (Path.mk url).relativePath = p at *
  obtain ⟨a, loc, ha, hlookup, hreached, rfl⟩ := canonical_eq h
  have hdirectory : ¬ p.HasRootDirectory := by
    simp [Path.HasRootDirectory, Path.rootDirectory, hrelative]
  have hname : ¬ p.HasRootName := fun hname => hrelative (rootName_head hname).1
  obtain rfl : b.append p = a := by
    rw [absolute, Path.absolute, if_neg hdirectory, if_neg hname, hb] at ha
    exact Option.some.inj ha
  -- both are resolved from the root directory
  have hbhead : b.path.head? = some Path.separator :=
    @absolute_head (currentPath fs) (pathname_head fs.currentPath) _ _ _ _ hb
  have hbne : b.path ≠ [] := fun hnil => by simp [hnil] at hbhead
  have hbase := resolves_names hroot
  have hres := resolves_names hlookup
  rw [start_rooted hbhead, cStr_eq hnul] at hbase
  rw [start_rooted (head_append hbhead),
    names_append_path hbne hnul hrelative] at hres
  by_cases hnone : names p.cStr = []
  · rw [hnone, List.append_nil] at hres
    have hsame := (walk_of_resolves hbase).symm.trans (walk_of_resolves hres)
    cases hsame
    rw [hnone, List.foldl_nil, List.append_nil]
  · obtain ⟨mid, hmid, n, -, hrest⟩ := hres.splits hnone
    have hsame := (walk_of_resolves hbase).symm.trans (walk_of_resolves hmid)
    cases hsame
    rw [resolves_below hlinks hrest (List.append_nil root).symm hstays]

/-- A directory `/r` with a file `/r/a/b` in it, and a link to it next to it. -/
def documentTree : FileSystem :=
  FileSystem.ofEntries
    [([[114]], .directory {}), ([[114], [97]], .directory {}), ([[114], [97], [98]], .file),
      ([[101]], .file), ([[108]], .symlink [114])] {} 8 (by decide)

theorem documentTree_unlinked (rel : Location) (target : Text) :
    documentTree.find ([[114]] ++ rel) ≠ some (.symlink target) := by
  intro h
  have hmem := (find_eq_some (by simp)).mp h
  simp [documentTree, ofEntries] at hmem

/-- `/a/../a//b` with the link `/l` as the root. -/
theorem served_below_root_linked :
    (⟨[47, 114, 47, 97, 47, 98]⟩ : Path) =
      ⟨pathname ([[114]] ++ (names (Path.mk
        [47, 97, 47, 46, 46, 47, 97, 47, 47, 98]).relativePath.cStr).foldl goTo [])⟩ :=
  @served_below_root documentTree [[114]] ⟨[47, 108]⟩ ⟨[47, 108]⟩ _
    [47, 97, 47, 46, 46, 47, 97, 47, 47, 98] (by decide) (by decide) (by rfl)
    documentTree_unlinked (by decide) (by decide) (by decide)

/-- Behind two separators a name is taken for a root name, and what is behind it
can be an absolute path, so that a name outside the root is served: `//a//e`. -/
example : filePath documentTree ⟨[47, 114]⟩ [47, 47, 97, 47, 47, 101] =
    some (⟨[47, 101]⟩, none) := by decide

end

end Acatl.Net
