/-
Acatl.CreateDirectories — `create_directories`, which goes through the elements
of a path and makes the directories that are not there.

The loop asks for the status of `dir` and leaves the rest to `create_directory`,
and that asks for the directory of `dir` with `parent_path`. For the first
element the answer is the empty path, which is no directory, and for the second
one too if the first one has a single character (`parentPath_append`). So what
the path begins with has to be there (`creates_iff`).

`Entered` says what one turn of the loop can do. Where a path leads if nothing is
missing on the way, `place`, does not depend on what is there, as there are no
symbolic links.
-/
import Acatl.PathAppending
import Acatl.PathResolution

namespace Acatl.Filesystem

open Acatl.Lib
open Acatl.Lib.Bidirectional

/-! ## §1 create_directories -/

section

variable (granted : Perms)

/-- What the loop does with `dir`; with `true` it goes on. -/
def enter (fs : FileSystem) (dir : Path) (ec : ErrorCode) : Result × FileSystem :=
  let s := (status fs dir).1
  if s.exists then
    if s ≠ .directory then (.returned false (some .ENOTDIR), fs) else (.returned true ec, fs)
  else createDirectory fs dir granted ec

/-- The loop, from one of the elements on. -/
def createFrom (p : Path) :
    Nat → FileSystem → Path.Iterator → Path → ErrorCode → Option (Result × FileSystem)
  | 0, _, _, _, _ => none
  | fuel + 1, fs, it, dir, ec =>
    if it.equal p.end then some (.returned true ec, fs)
    else
      let dir := dir.append ⟨it.element⟩
      match enter granted fs dir ec with
      | (.returned true ec, fs) => (p.increment it).bind fun it => createFrom p fuel fs it dir ec
      | stopped => some stopped

/-- `create_directories(p, ec)`. -/
def createDirectories (fuel : Nat) (fs : FileSystem) (p : Path) (ec : ErrorCode) :
    Option (Result × FileSystem) :=
  if p.path = [] then some (.returned false (some .ENOTDIR), fs)
  else createFrom granted p fuel fs p.begin ⟨[]⟩ ec

/-- The loop over a list of elements. -/
def createAll : FileSystem → Path → List Text → ErrorCode → Result × FileSystem
  | fs, _, [], ec => (.returned true ec, fs)
  | fs, dir, e :: es, ec =>
    match enter granted fs (dir.append ⟨e⟩) ec with
    | (.returned true ec, fs) => createAll fs (dir.append ⟨e⟩) es ec
    | stopped => stopped

variable {granted} {p dir : Path} {fs : FileSystem} {it : Path.Iterator}
  {its : List Path.Iterator} {ec : ErrorCode}

theorem createFrom_walk {fuel : Nat}
    (h : walkTo p.increment (·.equal p.end) fuel it = some its) :
    createFrom granted p fuel fs it dir ec =
      some (createAll granted fs dir (its.map Path.Iterator.element) ec) := by
  induction fuel generalizing it its fs dir ec with
  | zero => cases h
  | succ fuel ih =>
    rw [walkTo] at h
    rw [createFrom]
    split at h
    · rename_i hend
      cases h
      rw [if_pos hend]
      rfl
    · rename_i hend
      obtain ⟨it', hstep, hrest⟩ := Option.bind_eq_some_iff.mp h
      obtain ⟨rest, hwalk, rfl⟩ := Option.map_eq_some_iff.mp hrest
      rw [if_neg hend, List.map_cons, createAll]
      dsimp only
      split
      · rw [hstep, Option.bind_some, ih hwalk]
      · rfl

/-- A larger bound changes nothing. -/
theorem createFrom_succ {fuel : Nat} {r : Result × FileSystem}
    (h : createFrom granted p fuel fs it dir ec = some r) :
    createFrom granted p (fuel + 1) fs it dir ec = some r := by
  induction fuel generalizing it fs dir ec with
  | zero => cases h
  | succ fuel ih =>
    rw [createFrom] at h ⊢
    split at h
    · rename_i hend
      rwa [if_pos hend]
    · rename_i hend
      rw [if_neg hend]
      dsimp only at h ⊢
      split at h
      · obtain ⟨it', hstep, hrest⟩ := Option.bind_eq_some_iff.mp h
        rw [hstep, Option.bind_some, ih hrest]
      · exact h

theorem createFrom_le {fuel more : Nat} (hle : fuel ≤ more) {r : Result × FileSystem}
    (h : createFrom granted p fuel fs it dir ec = some r) :
    createFrom granted p more fs it dir ec = some r := by
  induction hle with
  | refl => exact h
  | step hle ih => exact createFrom_succ ih

/-- **What `create_directories` returns is decided by the elements of the path.** -/
theorem createDirectories_iff (hne : p.path ≠ []) {es : List Text} (hes : p.Yields es)
    {r : Result × FileSystem} :
    (∃ fuel, createDirectories granted fuel fs p ec = some r) ↔
      r = createAll granted fs ⟨[]⟩ es ec := by
  obtain ⟨n, its, hwalk, rfl⟩ := hes
  have hrun : createFrom granted p n fs p.begin ⟨[]⟩ ec =
      some (createAll granted fs ⟨[]⟩ (its.map Path.Iterator.element) ec) := createFrom_walk hwalk
  simp only [createDirectories, if_neg hne]
  refine ⟨fun h => ?_, fun h => ⟨n, h ▸ hrun⟩⟩
  obtain ⟨fuel, h⟩ := h
  have hmore := createFrom_le (Nat.le_max_left fuel n) h
  rw [createFrom_le (Nat.le_max_right fuel n) hrun] at hmore
  exact (Option.some.inj hmore).symm

end

/-! ## §2 New directories -/

namespace FileSystem

variable {fs fs' : FileSystem} {loc : Location} {granted : Perms}

theorem find_insert {dir : Location} {name : Name} (hname : ValidName name)
    (hdir : ∃ perms, fs.find dir = some (.directory perms))
    (hnew : fs.find (dir ++ [name]) = none) :
    (fs.insert dir name granted hname hdir hnew).find loc =
      if loc = dir ++ [name] then some (.directory granted) else fs.find loc := by
  have hnotMem : dir ++ [name] ∉ fs.locations := (find_eq_none (by simp)).mp hnew
  by_cases hnil : loc = []
  · subst hnil
    simp [find, insert]
  rw [find, find, if_neg hnil, if_neg hnil, insert, List.find?_append]
  by_cases hloc : loc = dir ++ [name]
  · subst hloc
    have hnone : (fs.entries.find? fun e => e.1 = dir ++ [name]) = none := by
      rw [List.find?_eq_none]
      intro e he heq
      exact hnotMem (List.mem_map.mpr ⟨e, he, by simpa using heq⟩)
    rw [hnone, if_pos rfl]
    simp
  · have hother : dir ++ [name] ≠ loc := fun heq => hloc heq.symm
    simp [hloc, hother]

/-- Nothing has become different but that there is a new directory. -/
structure Adds (fs fs' : FileSystem) (loc : Location) (granted : Perms) : Prop where
  remains : Remains fs fs'
  find : ∀ other, fs'.find other = if other = loc then some (.directory granted) else fs.find other

theorem insert_adds {dir : Location} {name : Name} (hname : ValidName name)
    (hdir : ∃ perms, fs.find dir = some (.directory perms))
    (hnew : fs.find (dir ++ [name]) = none) :
    Adds fs (fs.insert dir name granted hname hdir hnew) (dir ++ [name]) granted where
  remains := ⟨List.sublist_append_left _ _, rfl, rfl, rfl⟩
  find _ := find_insert hname hdir hnew

/-- There are no symbolic links, the process may do what it likes, also in what
it creates, and it is in a directory. -/
structure Ready (fs : FileSystem) (granted : Perms) : Prop where
  noLinks : ∀ loc target, fs.find loc ≠ some (.symlink target)
  usable : ∀ loc perms, fs.find loc = some (.directory perms) →
    perms.searchable = true ∧ perms.writable = true
  usableNew : granted.searchable = true ∧ granted.writable = true
  current : ∃ perms, fs.find fs.currentPath = some (.directory perms)

theorem Adds.ready (h : Adds fs fs' loc granted) (hready : Ready fs granted) :
    Ready fs' granted where
  noLinks other target := by
    rw [h.find]
    split
    · exact fun heq => by cases heq
    · exact hready.noLinks other target
  usable other perms hdir := by
    rw [h.find] at hdir
    split at hdir
    · cases hdir
      exact hready.usableNew
    · exact hready.usable other perms hdir
  usableNew := hready.usableNew
  current := by
    obtain ⟨perms, hperms⟩ := hready.current
    rw [← h.remains.currentPath]
    exact ⟨perms, h.remains.find_eq_some hperms⟩

/-- What a directory is in is a directory. -/
theorem find_dropLast {perms : Perms} (h : fs.find loc = some (.directory perms)) :
    ∃ perms, fs.find loc.dropLast = some (.directory perms) := by
  by_cases hnil : loc.dropLast = []
  · exact ⟨fs.root, by rw [hnil, find, if_pos rfl]⟩
  · have hne : loc ≠ [] := fun h => hnil (by rw [h]; rfl)
    have hmem := mem_locations_of_find hne h
    rw [locations, ← List.dropLast_append_getLast hne] at hmem
    obtain ⟨parent, hparent⟩ := fs.parents _ _ hmem hnil
    exact ⟨parent, (find_eq_some hnil).mpr hparent⟩

/-! ## §3 Where a path leads -/

/-- One name further on, from a directory where all names are those of
directories. -/
def goTo (cur : Location) (name : Name) : Location :=
  if name = [] ∨ name = dotName then cur
  else if name = dotDotName then cur.dropLast
  else cur ++ [name]

/-- The location that a path names if nothing is missing. -/
def place (fs : FileSystem) (p : Path) : Location :=
  (names p.cStr).foldl goTo (start fs.currentPath p.cStr)

theorem Resolves.walk_append {follow : Bool} {budget : Nat} {cur : Location} {front : List Name}
    (hlinks : ∀ loc target, fs.find loc ≠ some (.symlink target))
    (h : Resolves fs follow budget cur front loc) (back : List Name) :
    fs.walk follow budget cur (front ++ back) = fs.walk follow budget loc back := by
  induction h with
  | done budget cur => rfl
  | slash hdir h ih => simpa [walk_cons, hdir] using ih
  | dot hdir hsearch h ih => simpa [walk_cons, hdir, hsearch, dotName_ne_nil] using ih
  | dotDot hdir hsearch h ih =>
    simpa [walk_cons, hdir, hsearch, dotDotName_ne_nil, dotDotName_ne_dotName] using ih
  | @entry _ _ _ _ _ _ found hdir hsearch hname hfound hlink h ih =>
    cases found with
    | symlink target => exact absurd rfl (hlink target)
    | file => simpa [walk_cons, hdir, hsearch, hname, hfound] using ih
    | directory perms => simpa [walk_cons, hdir, hsearch, hname, hfound] using ih
  | last budget hdir hsearch hname hfound => exact absurd hfound (hlinks _ _)
  | link hdir hsearch hname hfound => exact absurd hfound (hlinks _ _)

theorem Resolves.goTo_eq {follow : Bool} {budget : Nat} {cur : Location} {ns : List Name}
    (hlinks : ∀ loc target, fs.find loc ≠ some (.symlink target))
    (h : Resolves fs follow budget cur ns loc) : ns.foldl goTo cur = loc := by
  induction h with
  | done budget cur => rfl
  | slash hdir h ih => exact ih
  | dot hdir hsearch h ih => exact ih
  | dotDot hdir hsearch h ih =>
    rw [List.foldl_cons, goTo, if_neg (by decide), if_pos rfl, ih]
  | entry hdir hsearch hname hfound hlink h ih =>
    rw [List.foldl_cons, goTo, if_neg (by simp [hname]), if_neg hname.2.2, ih]
  | last budget hdir hsearch hname hfound => exact absurd hfound (hlinks _ _)
  | link hdir hsearch hname hfound => exact absurd hfound (hlinks _ _)

/-- One name is looked up in a directory. -/
theorem Ready.walk_name (hready : Ready fs granted) {cur : Location} {perms : Perms}
    (hdir : fs.find cur = some (.directory perms)) (follow : Bool) (budget : Nat) (name : Name) :
    fs.walk follow budget cur [name] =
      match fs.find (goTo cur name) with
      | none => .error .ENOENT
      | some _ => .ok (goTo cur name) := by
  obtain ⟨hsearch, -⟩ := hready.usable cur perms hdir
  by_cases hnil : name = []
  · simp [walk_cons, hdir, goTo, hnil]
  by_cases hdot : name = dotName
  · simp [walk_cons, hdir, hsearch, goTo, hdot, dotName_ne_nil]
  by_cases hdotDot : name = dotDotName
  · obtain ⟨parent, hparent⟩ := find_dropLast hdir
    simp [walk_cons, hdir, hsearch, goTo, hdotDot, dotDotName_ne_nil, dotDotName_ne_dotName,
      hparent]
  · have hgoTo : goTo cur name = cur ++ [name] := by simp [goTo, hnil, hdot, hdotDot]
    rw [walk_cons, hdir, hgoTo]
    cases hfound : fs.find (cur ++ [name]) with
    | none => simp [hnil, hsearch, hdot, hdotDot]
    | some found =>
      cases found with
      | symlink target => exact absurd hfound (hready.noLinks _ _)
      | file => simp [hnil, hsearch, hdot, hdotDot]
      | directory perms => simp [hnil, hsearch, hdot, hdotDot]

theorem Ready.start_directory (hready : Ready fs granted) (text : Text) :
    ∃ perms, fs.find (start fs.currentPath text) = some (.directory perms) := by
  rw [start]
  split
  · exact ⟨fs.root, by rw [find, if_pos rfl]⟩
  · exact hready.current

/-- A directory is made where there is none. -/
theorem mkdir_eq_ok {text : Text} {dir : Location} {name : Name} {perms : Perms}
    (hlast : (names text).getLast? = some name)
    (hwalk : fs.walk true fs.symloopMax (start fs.currentPath text) (names text).dropLast = .ok dir)
    (hdir : fs.find dir = some (.directory perms))
    (husable : perms.searchable = true ∧ perms.writable = true) (hname : ValidName name)
    (hnew : fs.find (dir ++ [name]) = none) :
    fs.mkdir granted text = .ok (fs.insert dir name granted hname ⟨perms, hdir⟩ hnew) := by
  rw [mkdir]
  simp only [hlast, hwalk]
  split
  · rename_i hfind
    rw [hdir] at hfind
    cases hfind
  · rename_i perms' hfind
    obtain rfl : perms = perms' := by simpa [hdir] using hfind
    simp [husable, hname, hnew]
  · rename_i entry hnot hfind
    exact (hnot perms (Option.some.inj (hfind.symm.trans hdir))).elim

end FileSystem

/-! ## §4 The paths that the loop builds -/

section

variable {fs fs' : FileSystem} {granted : Perms} {d : Path} {e : Text}

/-- What `dir` is after each `dir /= entry`. -/
def prefixes (dir : Path) : List Text → List Path
  | [] => []
  | e :: es => dir.append ⟨e⟩ :: prefixes (dir.append ⟨e⟩) es

/-- A path is found where it leads. -/
def Found (fs : FileSystem) (d : Path) : Prop :=
  fs.lookup true d.cStr =
    match fs.find (fs.place d) with
    | none => .error .ENOENT
    | some _ => .ok (fs.place d)

/-- A path is that of a directory. -/
structure Stands (fs : FileSystem) (d : Path) : Prop where
  lookup : fs.lookup true d.cStr = .ok (fs.place d)
  directory : ∃ perms, fs.find (fs.place d) = some (.directory perms)

theorem Found.stands (h : Found fs d) {perms : Perms}
    (hdir : fs.find (fs.place d) = some (.directory perms)) : Stands fs d where
  lookup := by rw [h, hdir]
  directory := ⟨perms, hdir⟩

theorem place_of_remains (hfs : FileSystem.Remains fs fs') : fs'.place d = fs.place d := by
  rw [FileSystem.place, FileSystem.place, hfs.currentPath]

theorem Stands.of_remains (hfs : FileSystem.Remains fs fs') (h : Stands fs d) :
    Stands fs' d where
  lookup := by
    rw [place_of_remains hfs]
    exact FileSystem.lookup_of_remains hfs h.lookup
  directory := by
    obtain ⟨perms, hperms⟩ := h.directory
    rw [place_of_remains hfs]
    exact ⟨perms, hfs.find_eq_some hperms⟩

theorem Stands.stat (h : Stands fs d) : ∃ perms, fs.stat true d.cStr = .ok (.directory perms) := by
  obtain ⟨perms, hperms⟩ := h.directory
  exact ⟨perms, stat_eq_ok.mpr ⟨_, h.lookup, hperms⟩⟩

theorem place_append (hd : d.Extensible) (he : Path.Ordinary e) :
    fs.place (d.append ⟨e⟩) = FileSystem.goTo (fs.place d) e := by
  rw [FileSystem.place, cStr_eq (nul_notMem_append hd.nul he), names_append hd.nonempty he,
    FileSystem.start, append_head hd.nonempty, List.foldl_append, FileSystem.place,
    cStr_eq hd.nul]
  rfl

/-- The next path is found where it leads. -/
theorem found_append (hready : FileSystem.Ready fs granted) (hd : d.Extensible) (h : Stands fs d)
    (he : Path.Ordinary e) : Found fs (d.append ⟨e⟩) := by
  obtain ⟨perms, hperms⟩ := h.directory
  have hnames := resolves_names (cStr_eq hd.nul ▸ h.lookup)
  rw [Found, lookup_append hd.nul hd.nonempty he, hnames.walk_append hready.noLinks,
    hready.walk_name hperms, place_append hd he]

/-- The first path is found where it leads. -/
theorem found_first (hready : FileSystem.Ready fs granted) {t first rest : Text}
    (h : Path.Begins t first rest) (hnul : (0 : UInt8) ∉ t) : Found fs ⟨first⟩ := by
  obtain ⟨seps, name, hshape, hseps, hname⟩ := h.shape
  have hfirstnul := h.nul_notMem hnul
  have hruns : names first = runs Path.separator name := by
    rw [hshape]
    exact runs_seps_append hseps name
  obtain ⟨hcomponents, hplace⟩ : components first = [name] ∧
      fs.place ⟨first⟩ = FileSystem.goTo (FileSystem.start fs.currentPath first) name := by
    rw [FileSystem.place, cStr_eq hfirstnul, components, hruns]
    by_cases hnil : name = []
    · subst hnil
      rw [List.append_nil] at hshape
      have hsepsne : seps ≠ [] := hshape ▸ h.nonempty
      have hlast : first.getLast? = some Path.separator := by
        rw [hshape, List.getLast?_eq_some_getLast hsepsne, hseps _ (List.getLast_mem hsepsne)]
      rw [hlast, runs_nil]
      exact ⟨rfl, rfl⟩
    · obtain ⟨c, hc, hne⟩ := hname.getLast hnil
      have hlast : first.getLast? ≠ some Path.separator := by
        rw [hshape, List.getLast?_append, hc]
        simpa using hne
      rw [if_neg hlast, runs_single hname.notMem hnil]
      exact ⟨rfl, rfl⟩
  obtain ⟨perms, hperms⟩ := hready.start_directory first
  rw [Found, cStr_eq hfirstnul, FileSystem.lookup, if_neg h.nonempty, hcomponents,
    hready.walk_name hperms, hplace]

/-- `mkdir` makes the next directory. -/
theorem mkdir_append (hready : FileSystem.Ready fs granted) (hd : d.Extensible) (h : Stands fs d)
    (he : Path.Ordinary e) (hnew : fs.find (fs.place (d.append ⟨e⟩)) = none) :
    ∃ fs', fs.mkdir granted (d.append ⟨e⟩).cStr = .ok fs' ∧
      FileSystem.Adds fs fs' (fs.place (d.append ⟨e⟩)) granted := by
  obtain ⟨perms, hperms⟩ := h.directory
  have hnames := resolves_names (cStr_eq hd.nul ▸ h.lookup)
  have hplace : fs.place (d.append ⟨e⟩) = FileSystem.goTo (fs.place d) e := place_append hd he
  have hdot : e ≠ dotName := by
    rintro rfl
    rw [hplace, FileSystem.goTo, if_pos (.inr rfl), hperms] at hnew
    cases hnew
  have hdotDot : e ≠ dotDotName := by
    rintro rfl
    obtain ⟨parent, hparent⟩ := FileSystem.find_dropLast hperms
    rw [hplace, FileSystem.goTo, if_neg (by decide), if_pos rfl, hparent] at hnew
    cases hnew
  have hgoTo : FileSystem.goTo (fs.place d) e = fs.place d ++ [e] := by
    rw [FileSystem.goTo, if_neg (by simp [he.2, hdot]), if_neg hdotDot]
  rw [hplace, hgoTo] at hnew ⊢
  have hvalid : ValidName e := ⟨he.2, he.1.notMem, he.1.nul_notMem, hdot, hdotDot⟩
  refine ⟨_, FileSystem.mkdir_eq_ok ?_ ?_ hperms (hready.usable _ _ hperms) hvalid hnew,
    FileSystem.insert_adds hvalid ⟨perms, hperms⟩ hnew⟩
  · rw [cStr_eq (nul_notMem_append hd.nul he), names_append hd.nonempty he, List.getLast?_concat]
  · rw [cStr_eq (nul_notMem_append hd.nul he), names_append hd.nonempty he, List.dropLast_concat,
      FileSystem.start, append_head hd.nonempty]
    exact FileSystem.walk_of_resolves hnames

end

/-! ## §5 Parents -/

section

variable {d : Path} {e : Text}

/-- `parent_path` takes the last element off again, unless there is a single
character in front of it that is not the root directory. -/
theorem parentPath_append (hd : d.Extensible) (he : Path.Ordinary e) :
    (d.append ⟨e⟩).parentPath.path =
      if d.path = [Path.separator] ∨ 2 ≤ d.path.length then d.path else [] := by
  have hpath := hd.append_path he.1 he.2
  by_cases hroot : d.path = [Path.separator]
  · rw [hroot, if_pos rfl, List.append_nil] at hpath
    have hends : Path.Ends [] [Path.separator] e :=
      ⟨by simp [Path.AllSeparators], he.1, by simp, by simp⟩
    rw [Path.parentPath_eq hends hpath, if_neg (by simp), if_pos ⟨rfl, rfl, he.2⟩, hroot,
      if_pos (.inl rfl)]
  · rw [if_neg hroot] at hpath
    have hends : Path.Ends d.path [Path.separator] e :=
      ⟨by simp [Path.AllSeparators], he.1, hd.ends.resolve_left hroot, by simp⟩
    rw [Path.parentPath_eq hends hpath]
    simp [hroot, hd.nonempty]

/-- The first element has no parent. -/
theorem parentPath_first {t first rest : Text} (h : Path.Begins t first rest) :
    (Path.parentPath ⟨first⟩).path = [] := by
  obtain ⟨seps, name, hshape, hseps, hname⟩ := h.shape
  have hends : Path.Ends [] seps name := ⟨hseps, hname, by simp, fun _ => rfl⟩
  have hone : ¬ (seps.length = 1 ∧ name ≠ []) := by
    intro hroot
    obtain ⟨hlen, hne⟩ := hroot
    obtain ⟨a, rfl⟩ := List.length_eq_one_iff.mp hlen
    have hfront := Path.elements_front hseps hname hne Path.atSeparator_nil
    rw [List.append_nil, ← hshape, h.single] at hfront
    simp [Path.firstElements] at hfront
  rw [Path.parentPath_eq (p := ⟨first⟩) hends hshape, if_neg (by simp), if_neg (by simpa using hone)]

/-- Two elements have two characters. -/
theorem two_le_length (hd : d.Extensible) (he : Path.Ordinary e) :
    2 ≤ (d.append ⟨e⟩).path.length := by
  have hpos := List.length_pos_iff.mpr hd.nonempty
  have hepos := List.length_pos_iff.mpr he.2
  rw [hd.append_path he.1 he.2, List.length_append, List.length_append]
  omega

/-- Behind two elements there is always a parent. -/
theorem parents_behind (hd : d.Extensible) (he : Path.Ordinary e) {es : List Text}
    (hes : ∀ e ∈ es, Path.Ordinary e) :
    ∀ d' ∈ prefixes (d.append ⟨e⟩) es, d'.parentPath.path ≠ [] := by
  induction es generalizing d e with
  | nil => simp [prefixes]
  | cons e' es ih =>
    have he' := hes e' (by simp)
    have hnext := hd.append he.1 he.2
    intro d' hd'
    rcases List.mem_cons.mp hd' with rfl | hd'
    · rw [parentPath_append hnext he', if_pos (.inr (two_le_length hd he))]
      exact hnext.nonempty
    · exact ih hnext he' (fun e he => hes e (by simp [he])) d' hd'

end

/-! ## §6 One turn of the loop -/

section

variable {fs fs' : FileSystem} {granted : Perms} {d : Path} {e : Text} {ec : ErrorCode}

/-- What one turn does with a path. -/
inductive Entered (granted : Perms) (fs : FileSystem) (d : Path) (ec : ErrorCode) :
    Result × FileSystem → Prop
  | stands {perms : Perms} (hdir : fs.find (fs.place d) = some (.directory perms)) :
      Entered granted fs d ec (.returned true ec, fs)
  | obstructed {entry : Entry} (hentry : fs.find (fs.place d) = some entry)
      (hother : entry.isDirectory = false) :
      Entered granted fs d ec (.returned false (some .ENOTDIR), fs)
  | orphaned (hnew : fs.find (fs.place d) = none) (hparent : d.parentPath.path = []) :
      Entered granted fs d ec (.returned false (some .ENOTDIR), fs)
  | created {fs' : FileSystem} (hnew : fs.find (fs.place d) = none)
      (hparent : d.parentPath.path ≠ [])
      (hadds : FileSystem.Adds fs fs' (fs.place d) granted) :
      Entered granted fs d ec (.returned true ec, fs')

theorem status_of_stat {entry : Entry} (h : fs.stat true d.cStr = .ok entry) :
    (status fs d).1 = .ofEntry entry := by
  rw [status, h]
  rfl

theorem Found.missing (h : Found fs d) (hnew : fs.find (fs.place d) = none) :
    (status fs d).1 = .notFound := by
  have hlookup : fs.lookup true d.cStr = .error .ENOENT := by rw [h, hnew]
  rw [status, FileSystem.stat, hlookup]
  rfl

theorem Found.stat (h : Found fs d) {entry : Entry} (hentry : fs.find (fs.place d) = some entry) :
    fs.stat true d.cStr = .ok entry :=
  stat_eq_ok.mpr ⟨_, by rw [h, hentry], hentry⟩

/-- The empty path is that of no directory. -/
theorem isDirectory_nil (fs : FileSystem) (hnil : d.path = []) : isDirectory fs d = some false := by
  obtain ⟨path⟩ := d
  obtain rfl : path = [] := hnil
  rfl

theorem isDirectory_stands (h : Stands fs d) : isDirectory fs d = some true := by
  obtain ⟨perms, hstat⟩ := h.stat
  rw [isDirectory, status_of_stat hstat]
  rfl

theorem entered_of_found (hready : FileSystem.Ready fs granted) (hne : d.path ≠ [])
    (h : Found fs d)
    (hmake : d.parentPath.path ≠ [] → fs.find (fs.place d) = none → Stands fs d.parentPath ∧
      ∃ fs', fs.mkdir granted d.cStr = .ok fs' ∧ FileSystem.Adds fs fs' (fs.place d) granted) :
    Entered granted fs d ec (enter granted fs d ec) := by
  cases hfind : fs.find (fs.place d) with
  | some entry =>
    have hstatus := status_of_stat (h.stat hfind)
    cases entry with
    | symlink target => exact absurd hfind (hready.noLinks _ _)
    | file =>
      have henter : enter granted fs d ec = (.returned false (some .ENOTDIR), fs) := by
        simp [enter, hstatus, FileType.ofEntry, FileType.exists]
      rw [henter]
      exact .obstructed hfind rfl
    | directory perms =>
      have henter : enter granted fs d ec = (.returned true ec, fs) := by
        simp [enter, hstatus, FileType.ofEntry, FileType.exists]
      rw [henter]
      exact .stands hfind
  | none =>
    have hstatus := h.missing hfind
    have henter : enter granted fs d ec = createDirectory fs d granted ec := by
      simp [enter, hstatus, FileType.exists]
    rw [henter]
    by_cases hparent : d.parentPath.path = []
    · have hcreate : createDirectory fs d granted ec = (.returned false (some .ENOTDIR), fs) := by
        rw [createDirectory, if_neg hne, isDirectory_nil fs hparent]
      rw [hcreate]
      exact .orphaned hfind hparent
    · obtain ⟨hstands, fs', hmkdir, hadds⟩ := hmake hparent hfind
      have hcreate : createDirectory fs d granted ec = (.returned true ec, fs') := by
        simp [createDirectory, hne, isDirectory_stands hstands, hstatus, FileType.exists, hmkdir]
      rw [hcreate]
      exact .created hfind hparent hadds

/-- A turn for the first element. -/
theorem entered_first (hready : FileSystem.Ready fs granted) {t first rest : Text}
    (h : Path.Begins t first rest) (hnul : (0 : UInt8) ∉ t) (ec : ErrorCode) :
    Entered granted fs ⟨first⟩ ec (enter granted fs ⟨first⟩ ec) :=
  entered_of_found hready h.nonempty (found_first hready h hnul)
    fun hparent => absurd (parentPath_first h) hparent

/-- A turn for one of the others. -/
theorem entered_append (hready : FileSystem.Ready fs granted) (hd : d.Extensible)
    (h : Stands fs d) (he : Path.Ordinary e) (ec : ErrorCode) :
    Entered granted fs (d.append ⟨e⟩) ec (enter granted fs (d.append ⟨e⟩) ec) := by
  refine entered_of_found hready (hd.append he.1 he.2).nonempty (found_append hready hd h he)
    fun hparent hnew => ?_
  have hsame : (d.append ⟨e⟩).parentPath = d := by
    have hpath := parentPath_append hd he
    split at hpath
    · exact congrArg Path.mk hpath
    · exact absurd hpath hparent
  rw [hsame]
  exact ⟨h, mkdir_append hready hd h he hnew⟩

end

/-! ## §7 The loop -/

section

variable {fs fs' fs'' : FileSystem} {granted : Perms} {d : Path} {ds : List Path} {es : List Text}
  {ec ec' : ErrorCode}

/-- What the loop has done when it has come through some paths. -/
structure Makes (fs fs' : FileSystem) (ds : List Path) : Prop where
  remains : FileSystem.Remains fs fs'
  stands : ∀ d ∈ ds, Stands fs' d
  changed : ∀ loc, fs'.find loc ≠ fs.find loc → ∃ d ∈ ds, fs.place d = loc
  started : ∀ d ∈ ds, d.parentPath.path = [] → Stands fs d

theorem Makes.nil (fs : FileSystem) : Makes fs fs [] where
  remains := FileSystem.Remains.refl fs
  stands := by simp
  changed _ h := absurd rfl h
  started := by simp

/-- A turn for a directory that is there. -/
theorem Makes.cons_stands (hd : Stands fs d) (h : Makes fs fs' ds) : Makes fs fs' (d :: ds) where
  remains := h.remains
  stands := List.forall_mem_cons.mpr ⟨hd.of_remains h.remains, h.stands⟩
  changed loc hloc := by
    obtain ⟨d', hd', hplace⟩ := h.changed loc hloc
    exact ⟨d', List.mem_cons_of_mem _ hd', hplace⟩
  started := by
    intro d' hd' hparent
    rcases List.mem_cons.mp hd' with rfl | hd'
    · exact hd
    · exact h.started d' hd' hparent

/-- A turn for a new one. -/
theorem Makes.cons_created (hparent : d.parentPath.path ≠ [])
    (hadds : FileSystem.Adds fs fs' (fs.place d) granted) (hd : Stands fs' d)
    (hparents : ∀ d' ∈ ds, d'.parentPath.path ≠ []) (h : Makes fs' fs'' ds) :
    Makes fs fs'' (d :: ds) where
  remains := hadds.remains.trans h.remains
  stands := List.forall_mem_cons.mpr ⟨hd.of_remains h.remains, h.stands⟩
  changed loc hloc := by
    by_cases hnew : loc = fs.place d
    · exact ⟨d, List.mem_cons_self, hnew.symm⟩
    · have hsame := hadds.find loc
      rw [if_neg hnew] at hsame
      obtain ⟨d', hd', hplace⟩ := h.changed loc (by rwa [hsame])
      exact ⟨d', List.mem_cons_of_mem _ hd', by rw [← hplace, place_of_remains hadds.remains]⟩
  started := by
    intro d' hd' hnone
    rcases List.mem_cons.mp hd' with rfl | hd'
    · exact absurd hnone hparent
    · exact absurd hnone (hparents d' hd')

/-- The new directory is found. -/
theorem stands_of_adds (hready : FileSystem.Ready fs granted) (hd : d.Extensible)
    (h : Stands fs d) {e : Text} (he : Path.Ordinary e)
    (hadds : FileSystem.Adds fs fs' (fs.place (d.append ⟨e⟩)) granted) :
    Stands fs' (d.append ⟨e⟩) := by
  have hfound := found_append (hadds.ready hready) hd (h.of_remains hadds.remains) he
  have hdir : fs'.find (fs'.place (d.append ⟨e⟩)) = some (.directory granted) := by
    rw [place_of_remains hadds.remains, hadds.find, if_pos rfl]
  exact hfound.stands hdir

/-- **What the loop does when it returns `true`.** -/
theorem createAll_makes (hready : FileSystem.Ready fs granted) (hd : d.Extensible)
    (h : Stands fs d) (hes : ∀ e ∈ es, Path.Ordinary e)
    (hrun : createAll granted fs d es ec = (.returned true ec', fs')) :
    Makes fs fs' (prefixes d es) := by
  induction es generalizing fs d ec with
  | nil =>
    cases hrun
    exact Makes.nil _
  | cons e es ih =>
    have he := hes e (by simp)
    have hbehind : ∀ e ∈ es, Path.Ordinary e := fun e he => hes e (by simp [he])
    have hnext := hd.append he.1 he.2
    have hentered := entered_append hready hd h he ec
    rw [createAll] at hrun
    generalize hresult : enter granted fs (d.append ⟨e⟩) ec = result at hentered hrun
    cases hentered with
    | stands hdir =>
      have hstands := (found_append hready hd h he).stands hdir
      exact (ih hready hnext hstands hbehind hrun).cons_stands hstands
    | obstructed hentry hother => cases hrun
    | orphaned hnew hparent => cases hrun
    | created hnew hparent hadds =>
      have hstands := stands_of_adds hready hd h he hadds
      exact (ih (hadds.ready hready) hnext hstands hbehind hrun).cons_created hparent hadds hstands
        (parents_behind hd he hbehind)

/-- Nothing but directories is in the way. -/
def Unobstructed (fs : FileSystem) (ds : List Path) : Prop :=
  ∀ d ∈ ds, ∀ entry, fs.find (fs.place d) = some entry → entry.isDirectory = true

/-- What has an empty `parent_path` is there. -/
def Started (fs : FileSystem) (ds : List Path) : Prop :=
  ∀ d ∈ ds, d.parentPath.path = [] → (status fs d).1.exists = true

theorem Unobstructed.tail (h : Unobstructed fs (d :: ds)) : Unobstructed fs ds :=
  fun d' hd' => h d' (List.mem_cons_of_mem _ hd')

theorem Started.tail (h : Started fs (d :: ds)) : Started fs ds :=
  fun d' hd' => h d' (List.mem_cons_of_mem _ hd')

theorem Unobstructed.not_obstructed (h : Unobstructed fs (d :: ds)) {entry : Entry}
    (hentry : fs.find (fs.place d) = some entry) : entry.isDirectory ≠ false := by
  have hdir := h d List.mem_cons_self entry hentry
  exact Bool.ne_false_iff.mpr hdir

theorem Started.not_orphaned (h : Started fs (d :: ds)) (hfound : Found fs d)
    (hnew : fs.find (fs.place d) = none) : d.parentPath.path ≠ [] := by
  intro hparent
  have hexists := h d List.mem_cons_self hparent
  rw [hfound.missing hnew] at hexists
  cases hexists

/-- **The loop returns `true` when nothing is in the way.** -/
theorem createAll_returns (hready : FileSystem.Ready fs granted) (hd : d.Extensible)
    (h : Stands fs d) (hes : ∀ e ∈ es, Path.Ordinary e)
    (hclear : Unobstructed fs (prefixes d es)) (hstarted : Started fs (prefixes d es)) :
    ∃ ec' fs', createAll granted fs d es ec = (.returned true ec', fs') := by
  induction es generalizing fs d ec with
  | nil => exact ⟨ec, fs, rfl⟩
  | cons e es ih =>
    have he := hes e (by simp)
    have hbehind : ∀ e ∈ es, Path.Ordinary e := fun e he => hes e (by simp [he])
    have hnext := hd.append he.1 he.2
    have hfound := found_append hready hd h he
    have hentered := entered_append hready hd h he ec
    rw [createAll]
    generalize hresult : enter granted fs (d.append ⟨e⟩) ec = result at hentered
    cases hentered with
    | stands hdir =>
      exact ih hready hnext (hfound.stands hdir) hbehind hclear.tail hstarted.tail
    | obstructed hentry hother => exact absurd hother (hclear.not_obstructed hentry)
    | orphaned hnew hparent => exact absurd hparent (hstarted.not_orphaned hfound hnew)
    | created hnew hparent hadds =>
      refine ih (hadds.ready hready) hnext (stands_of_adds hready hd h he hadds) hbehind ?_ ?_
      · intro d' hd' entry hentry
        rw [place_of_remains hadds.remains, hadds.find] at hentry
        split at hentry
        · cases hentry
          rfl
        · exact hclear.tail d' hd' entry hentry
      · exact fun d' hd' hnone => absurd hnone (parents_behind hd he hbehind d' hd')

end

/-! ## §8 The whole path -/

section

variable {fs fs' : FileSystem} {granted : Perms} {d p : Path} {es : List Text} {ec ec' : ErrorCode}
  {ds : List Path} {t first rest : Text}

theorem nil_append (e : Text) : Path.append ⟨[]⟩ ⟨e⟩ = ⟨e⟩ := by
  rw [Path.append, if_pos (.inl rfl), List.nil_append]

theorem whole_makes (hready : FileSystem.Ready fs granted) (h : Path.Begins t first rest)
    (hnul : (0 : UInt8) ∉ t)
    (hrun : createAll granted fs ⟨[]⟩ (Path.elements t) ec = (.returned true ec', fs')) :
    Makes fs fs' (prefixes ⟨[]⟩ (Path.elements t)) := by
  have hothers := h.ordinary hnul
  have hentered := entered_first hready h hnul ec
  rw [h.elements_eq, createAll, nil_append] at hrun
  rw [h.elements_eq, prefixes, nil_append]
  generalize hresult : enter granted fs ⟨first⟩ ec = result at hentered hrun
  cases hentered with
  | stands hdir =>
    have hstands := (found_first hready h hnul).stands hdir
    obtain hnil | hext := h.extensible
    · rw [hnil] at hrun ⊢
      cases hrun
      exact (Makes.nil _).cons_stands hstands
    · exact (createAll_makes hready hext hstands hothers hrun).cons_stands hstands
  | obstructed hentry hother => cases hrun
  | orphaned hnew hparent => cases hrun
  | created hnew hparent hadds => exact absurd (parentPath_first h) hparent

theorem whole_returns (hready : FileSystem.Ready fs granted) (h : Path.Begins t first rest)
    (hnul : (0 : UInt8) ∉ t) (hclear : Unobstructed fs (prefixes ⟨[]⟩ (Path.elements t)))
    (hstarted : Started fs (prefixes ⟨[]⟩ (Path.elements t))) (ec : ErrorCode) :
    ∃ ec' fs', createAll granted fs ⟨[]⟩ (Path.elements t) ec = (.returned true ec', fs') := by
  have hothers := h.ordinary hnul
  have hentered := entered_first hready h hnul ec
  have hfound := found_first hready h hnul
  rw [h.elements_eq, prefixes, nil_append] at hclear hstarted
  rw [h.elements_eq, createAll, nil_append]
  generalize hresult : enter granted fs ⟨first⟩ ec = result at hentered
  cases hentered with
  | stands hdir =>
    obtain hnil | hext := h.extensible
    · rw [hnil]
      exact ⟨ec, fs, rfl⟩
    · exact createAll_returns hready hext (hfound.stands hdir) hothers hclear.tail hstarted.tail
  | obstructed hentry hother => exact absurd hother (hclear.not_obstructed hentry)
  | orphaned hnew hparent => exact absurd hparent (hstarted.not_orphaned hfound hnew)
  | created hnew hparent hadds => exact absurd (parentPath_first h) hparent

theorem appendAll_mem_prefixes (d : Path) {es : List Text} (hne : es ≠ []) :
    d.appendAll es ∈ prefixes d es := by
  induction es generalizing d with
  | nil => exact absurd rfl hne
  | cons e es ih =>
    have hstep : d.appendAll (e :: es) = (d.append ⟨e⟩).appendAll es := rfl
    rw [prefixes, hstep]
    by_cases hnil : es = []
    · rw [hnil]
      exact List.mem_cons_self
    · exact List.mem_cons_of_mem _ (ih _ hnil)

/-- What all elements together have of the path that they are put behind. -/
theorem names_appendAll (hd : d.Extensible) (hes : ∀ e ∈ es, Path.Ordinary e) :
    names (d.appendAll es).path = names d.path ++ es ∧
      (d.appendAll es).path.head? = d.path.head? := by
  induction es generalizing d with
  | nil => simp
  | cons e es ih =>
    have he := hes e (by simp)
    obtain ⟨hnames, hhead⟩ := ih (hd.append he.1 he.2) fun e he => hes e (by simp [he])
    have hstep : d.appendAll (e :: es) = (d.append ⟨e⟩).appendAll es := rfl
    rw [hstep, hnames, hhead, names_append hd.nonempty he, append_head hd.nonempty]
    simp

/-- All elements together have the names of the path, and a dot behind them if it
ends with a separator. -/
theorem whole_names (h : Path.Begins t first rest) (hnul : (0 : UInt8) ∉ t) :
    (0 : UInt8) ∉ (Path.appendAll ⟨first⟩ (Path.following rest)).path ∧
      (Path.appendAll ⟨first⟩ (Path.following rest)).path.head? = t.head? ∧
      names (Path.appendAll ⟨first⟩ (Path.following rest)).path =
        names t ++ if rest.getLast? = some Path.separator then [dotName] else [] := by
  have hthead : first.head? = t.head? := by
    obtain ⟨c, text, hcons⟩ := List.exists_cons_of_ne_nil h.nonempty
    rw [h.whole, hcons]
    rfl
  have hsplit : names first ++ Path.following rest =
      names t ++ if rest.getLast? = some Path.separator then [dotName] else [] := by
    have hruns : names t = names first ++ runs Path.separator rest := h.runs_eq
    rw [hruns, List.append_assoc]
    rfl
  obtain hnil | hext := h.extensible
  · rw [hnil] at hsplit ⊢
    exact ⟨h.nul_notMem hnul, hthead, (List.append_nil _).symm.trans hsplit⟩
  · have hothers := h.ordinary hnul
    obtain ⟨hnames, hhead⟩ := names_appendAll hext hothers
    exact ⟨(hext.appendAll hothers).1.nul, hhead.trans hthead, hnames.trans hsplit⟩

/-- The path itself is found if all of its elements are. -/
theorem whole_lookup (hlinks : ∀ loc target, fs.find loc ≠ some (.symlink target))
    (h : Path.Begins t first rest) (hnul : (0 : UInt8) ∉ t)
    (hstands : Stands fs (Path.appendAll ⟨first⟩ (Path.following rest))) :
    ∃ loc perms, fs.lookup true t = .ok loc ∧ fs.find loc = some (.directory perms) := by
  obtain ⟨hdnul, hhead, hnames⟩ := whole_names h hnul
  obtain ⟨perms, hperms⟩ := hstands.directory
  have hres := resolves_names (cStr_eq hdnul ▸ hstands.lookup)
  rw [hnames, FileSystem.start, hhead, ← FileSystem.start] at hres
  have hres' : FileSystem.Resolves fs true fs.symloopMax (FileSystem.start fs.currentPath t)
      (names t) (fs.place (Path.appendAll ⟨first⟩ (Path.following rest))) := by
    split at hres
    · obtain ⟨mid, hmid, n, -, hdot⟩ := hres.splits (by simp)
      -- a dot leads nowhere else
      rwa [← hdot.goTo_eq hlinks]
    · rwa [List.append_nil] at hres
  have htne : t ≠ [] := by simp [h.whole, h.nonempty]
  refine ⟨_, perms, ?_, hperms⟩
  rw [FileSystem.lookup, if_neg htne, components, hres'.walk_append hlinks]
  split
  · simp [FileSystem.walk_cons, hperms]
  · exact FileSystem.walk_nil

/-- A path is made: everything is as it was, and where the elements lead there
are directories. -/
structure Made (fs fs' : FileSystem) (p : Path) (es : List Text) : Prop where
  remains : FileSystem.Remains fs fs'
  directories : ∀ d ∈ prefixes ⟨[]⟩ es, (status fs' d).1 = .directory
  whole : (status fs' p).1 = .directory
  changed : ∀ loc, fs'.find loc ≠ fs.find loc →
    ∃ d ∈ prefixes ⟨[]⟩ es, fs'.lookup true d.cStr = .ok loc

/-- `create_directories` returns `true`, and has made the path. -/
def Creates (granted : Perms) (fs : FileSystem) (p : Path) (es : List Text) (ec : ErrorCode) :
    Prop :=
  ∃ fuel ec' fs', createDirectories granted fuel fs p ec = some (.returned true ec', fs') ∧
    Made fs fs' p es

theorem Stands.status (h : Stands fs d) : (status fs d).1 = .directory := by
  obtain ⟨perms, hstat⟩ := h.stat
  rw [status_of_stat hstat]
  rfl

/-- There are still no links. -/
theorem Makes.noLinks (h : Makes fs fs' ds)
    (hlinks : ∀ loc target, fs.find loc ≠ some (.symlink target)) (loc : Location) (target : Text) :
    fs'.find loc ≠ some (.symlink target) := by
  intro hlink
  by_cases hsame : fs'.find loc = fs.find loc
  · exact hlinks loc target (hsame ▸ hlink)
  · obtain ⟨d, hd, hplace⟩ := h.changed loc hsame
    obtain ⟨perms, hperms⟩ := (h.stands d hd).directory
    rw [place_of_remains h.remains, hplace, hlink] at hperms
    cases hperms

theorem made_of_makes (hlinks : ∀ loc target, fs.find loc ≠ some (.symlink target))
    (hp : p.cStr = t) (h : Path.Begins t first rest)
    (hmakes : Makes fs fs' (prefixes ⟨[]⟩ (Path.elements t))) :
    Made fs fs' p (Path.elements t) where
  remains := hmakes.remains
  directories d hd := (hmakes.stands d hd).status
  whole := by
    have hnul : (0 : UInt8) ∉ t := hp ▸ Path.nul_notMem_cStr p
    have hne : Path.elements t ≠ [] := by simp [h.elements_eq]
    have hstands := hmakes.stands _ (appendAll_mem_prefixes ⟨[]⟩ hne)
    rw [h.elements_eq, Path.appendAll_first] at hstands
    obtain ⟨loc, perms, hlookup, hfind⟩ :=
      whole_lookup (hmakes.noLinks hlinks) h hnul hstands
    have hstat : fs'.stat true p.cStr = .ok (.directory perms) :=
      stat_eq_ok.mpr ⟨loc, hp ▸ hlookup, hfind⟩
    rw [status_of_stat hstat]
    rfl
  changed loc hloc := by
    obtain ⟨d, hd, hplace⟩ := hmakes.changed loc hloc
    refine ⟨d, hd, ?_⟩
    rw [(hmakes.stands d hd).lookup, place_of_remains hmakes.remains, hplace]

/-- What is in the way stays in the way. -/
theorem Makes.unobstructed (h : Makes fs fs' ds) : Unobstructed fs ds := by
  intro d hd entry hentry
  obtain ⟨perms, hperms⟩ := (h.stands d hd).directory
  rw [place_of_remains h.remains, h.remains.find_eq_some hentry] at hperms
  rw [Option.some.inj hperms]
  rfl

theorem Makes.starts (h : Makes fs fs' ds) : Started fs ds := by
  intro d hd hparent
  rw [(h.started d hd hparent).status]
  rfl

/-- Nothing can be done for a path that begins with a NUL. -/
theorem createAll_nul (granted : Perms) (fs : FileSystem) (ec : ErrorCode) :
    createAll granted fs ⟨[]⟩ [[]] ec = (.returned false (some .ENOTDIR), fs) := rfl

/-- **Where there are no symbolic links and nothing is forbidden,
`create_directories` makes a path if nothing else is in the way, and all that has
an empty `parent_path` is there.** -/
theorem creates_iff (hready : FileSystem.Ready fs granted) (hne : p.path ≠ []) (hes : p.Yields es)
    (ec : ErrorCode) :
    Creates granted fs p es ec ↔
      Unobstructed fs (prefixes ⟨[]⟩ es) ∧ Started fs (prefixes ⟨[]⟩ es) := by
  obtain ⟨-, hnil, hyields⟩ | ⟨hcStr, hyields⟩ := p.exists_yields
  · obtain rfl := hes.unique hyields
    refine ⟨fun h => ?_, fun h => ?_⟩
    · obtain ⟨fuel, ec', fs', hrun, -⟩ := h
      have hresult := (createDirectories_iff hne hes).mp ⟨fuel, hrun⟩
      rw [createAll_nul] at hresult
      cases hresult
    · have hexists := h.2 ⟨[]⟩ List.mem_cons_self rfl
      cases hexists
  · obtain rfl := hes.unique hyields
    have htne : p.cStr ≠ [] := hcStr.resolve_left hne
    have hnul := Path.nul_notMem_cStr p
    obtain ⟨first, rest, h⟩ := Path.exists_first htne hnul
    refine ⟨fun hcreates => ?_, fun hclear => ?_⟩
    · obtain ⟨fuel, ec', fs', hrun, -⟩ := hcreates
      have hresult := (createDirectories_iff hne hes).mp ⟨fuel, hrun⟩
      have hmakes := whole_makes hready h hnul hresult.symm
      exact ⟨hmakes.unobstructed, hmakes.starts⟩
    · obtain ⟨ec', fs', hresult⟩ := whole_returns hready h hnul hclear.1 hclear.2 ec
      obtain ⟨fuel, hrun⟩ := (createDirectories_iff hne hes).mpr hresult.symm
      exact ⟨fuel, ec', fs', hrun,
        made_of_makes hready.noLinks rfl h (whole_makes hready h hnul hresult)⟩

/-- Nothing but the root directory, which is also the current one. -/
def emptyTree : FileSystem := FileSystem.ofEntries [] {} 8 (by decide)

theorem emptyTree_ready : FileSystem.Ready emptyTree {} where
  noLinks loc target := by
    intro h
    by_cases hnil : loc = []
    · subst hnil
      cases h
    · simp [FileSystem.find, hnil, emptyTree, FileSystem.ofEntries] at h
  usable loc perms h := by
    by_cases hnil : loc = []
    · subst hnil
      obtain rfl : ({} : Perms) = perms := by
        simpa [FileSystem.find, emptyTree, FileSystem.ofEntries] using h
      exact ⟨rfl, rfl⟩
    · simp [FileSystem.find, hnil, emptyTree, FileSystem.ofEntries] at h
  usableNew := ⟨rfl, rfl⟩
  current := ⟨{}, rfl⟩

/-- `"/a/b"`. -/
theorem creates_iff_absolute : Creates {} emptyTree ⟨[47, 97, 47, 98]⟩ [[47], [97], [98]] none :=
  (creates_iff emptyTree_ready (by decide)
    (Path.yields_elements ⟨[47, 97, 47, 98]⟩ (by decide)) none).mpr
    ⟨by unfold Unobstructed; decide, by unfold Started; decide⟩

/-- Nothing is in the way of `"a"`. -/
theorem not_always_creates :
    ¬ ∀ (fs : FileSystem) (granted : Perms) (p : Path) (es : List Text) (ec : ErrorCode),
      FileSystem.Ready fs granted → p.path ≠ [] → p.Yields es →
      (∀ d ∈ prefixes ⟨[]⟩ es, ∀ entry, fs.stat true d.cStr = .ok entry →
        entry.isDirectory = true) → Creates granted fs p es ec := by
  intro h
  have hyields : Path.Yields ⟨[97]⟩ [[97]] := Path.yields_elements ⟨[97]⟩ (by decide)
  obtain ⟨fuel, ec', fs', hrun, -⟩ := h emptyTree {} ⟨[97]⟩ [[97]] none emptyTree_ready
    (by decide) hyields (by
      intro d hd entry hentry
      obtain rfl := List.mem_singleton.mp hd
      cases hentry)
  have hresult := (createDirectories_iff (by decide) hyields).mp ⟨fuel, hrun⟩
  have hfalse : (createAll {} emptyTree ⟨[]⟩ [[97]] none).1 = .returned false (some .ENOTDIR) := rfl
  rw [← hresult] at hfalse
  cases hfalse

end

end Acatl.Filesystem
