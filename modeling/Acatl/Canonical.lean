/-
Acatl.Canonical — `canonical` and `equivalent` (`detail/posix/filesystem.cpp`).

`canonical` gives the result of `absolute` to `::realpath`, which resolves it like
any pathname, every link followed, and writes down the names from the root
directory to where that leads. Two entries of the file system have the same
inode only if they are one entry, since it has no hard links. That the working
directory was removed, and that a pathname is too long, is left out.

  §1  the functions;
  §2  `Reached`: what is known of a location that resolution has led to;
  §3  the pathname of such a location leads there, past no link;
  §4  `canonical_normal`: the result is a normal form of the pathname;
  §5  `canonical_eq_iff_equivalent`: and the same one for every name of an entry.
-/
import Acatl.CreateDirectories
import Acatl.PathAbsolute

namespace Acatl.Filesystem

open Acatl.Lib

/-! ## §1 The functions -/

/-- The names of a location behind separators. -/
def pathname (loc : Location) : Text :=
  if loc = [] then [Path.separator] else loc.flatMap fun name => Path.separator :: name

/-- `::realpath`. -/
def realpath (fs : FileSystem) (text : Text) : Except Errno Text :=
  match fs.lookup true text with
  | .error errno => .error errno
  | .ok loc => .ok (pathname loc)

/-- `current_path()`. -/
def currentPath (fs : FileSystem) : Path := ⟨pathname fs.currentPath⟩

/-- `absolute(p, base)`, which is at most three calls deep. -/
def absolute (fs : FileSystem) (p base : Path) : Option Path :=
  Path.absolute (currentPath fs) 3 p base

/-- `canonical(p, base, ec)`. It leaves the error code as it is when it succeeds. -/
def canonical (fs : FileSystem) (p base : Path) (ec : ErrorCode) : Option (Path × ErrorCode) := do
  let a ← absolute fs p base
  match realpath fs a.cStr with
  | .error errno => some (⟨[]⟩, some errno)
  | .ok text => some (⟨text⟩, ec)

/-- `equivalent(p1, p2, ec)`. -/
def equivalent (fs : FileSystem) (p1 p2 : Path) : Bool × ErrorCode :=
  match fs.lookup true p1.cStr, fs.lookup true p2.cStr with
  | .error errno, _ => (false, some errno)
  | .ok _, .error errno => (false, some errno)
  | .ok loc1, .ok loc2 => (decide (loc1 = loc2), none)

/-! ## §2 Locations that resolution leads to -/

namespace FileSystem

variable {fs : FileSystem} {cur loc : Location} {ns : List Name}

/-- Every directory above is there and can be searched. -/
def Above (fs : FileSystem) (loc : Location) : Prop :=
  ∀ dir name, dir ++ [name] <+: loc →
    ∃ perms, fs.find dir = some (.directory perms) ∧ perms.searchable = true

/-- So is every directory above, and what is there is not a link. -/
structure Reached (fs : FileSystem) (loc : Location) : Prop where
  above : Above fs loc
  found : ∃ entry, fs.find loc = some entry ∧ ∀ target, entry ≠ .symlink target

theorem find_root (fs : FileSystem) : fs.find [] = some (.directory fs.root) := by
  rw [find, if_pos rfl]

theorem reached_root (fs : FileSystem) : Reached fs [] where
  above dir name h := by
    have := List.prefix_nil.mp h
    simp at this
  found := ⟨_, fs.find_root, by simp⟩

theorem Above.dropLast (h : Above fs cur) : Above fs cur.dropLast := fun dir name hpre =>
  h dir name (hpre.trans (List.dropLast_prefix cur))

theorem Above.concat (h : Above fs cur) {perms : Perms}
    (hdir : fs.find cur = some (.directory perms)) (hsearch : perms.searchable = true)
    (name : Name) : Above fs (cur ++ [name]) := by
  intro dir name' hpre
  rcases List.prefix_concat_iff.mp hpre with heq | hpre
  · obtain ⟨rfl, -⟩ := List.append_inj' heq rfl
    exact ⟨perms, hdir, hsearch⟩
  · exact h dir name' hpre

/-- The directory that `".."` leads to is one of those above. -/
theorem Reached.dropLast (h : Reached fs cur) {perms : Perms}
    (hdir : fs.find cur = some (.directory perms)) : Reached fs cur.dropLast := by
  obtain ⟨perms', hperms⟩ := find_dropLast hdir
  exact ⟨h.above.dropLast, _, hperms, by simp⟩

/-- Resolution leads from where it can lead to where it can lead. -/
theorem Resolves.reached {budget : Nat} (h : Resolves fs true budget cur ns loc)
    (hcur : Reached fs cur) : Reached fs loc := by
  induction h with
  | done budget cur => exact hcur
  | slash hdir h ih => exact ih hcur
  | dot hdir hsearch h ih => exact ih hcur
  | dotDot hdir hsearch h ih => exact ih (hcur.dropLast hdir)
  | entry hdir hsearch hname hfound hlink h ih =>
    exact ih ⟨hcur.above.concat hdir hsearch _, _, hfound, hlink⟩
  | last budget hdir hsearch hname hfound hfollow => cases hfollow
  | link hdir hsearch hname hfound hlast htarget h ih =>
    refine ih ?_
    rw [start]
    split
    · exact fs.reached_root
    · exact hcur

/-! ## §3 The pathname of a location -/

theorem valid_of_found {entry : Entry} (h : fs.find loc = some entry) :
    ∀ name ∈ loc, ValidName name := by
  induction loc using List.reverseRecOn generalizing entry with
  | nil => simp
  | append_singleton loc name ih =>
    have hmem := mem_locations_of_find (by simp) h
    intro name' hname'
    rcases List.mem_append.mp hname' with hname' | hname'
    · by_cases hnil : loc = []
      · simp [hnil] at hname'
      · obtain ⟨perms, hperms⟩ := fs.parents loc name hmem hnil
        exact ih ((find_eq_some hnil).mpr hperms) name' hname'
    · obtain rfl := List.mem_singleton.mp hname'
      exact fs.valid loc name' hmem

/-- From the root directory through all names of a location and on. -/
theorem Reached.walk_through (h : Reached fs loc) (follow : Bool) (budget : Nat)
    (back : List Name) :
    fs.walk follow budget [] (loc ++ back) = fs.walk follow budget loc back := by
  -- in front of `suf` the names are gone through
  have hgo : ∀ suf pre, pre ++ suf = loc →
      fs.walk follow budget pre (suf ++ back) = fs.walk follow budget loc back := by
    intro suf
    induction suf with
    | nil => rintro pre rfl; simp
    | cons name suf ih =>
      intro pre hpre
      obtain ⟨entry, hentry, hlink⟩ := h.found
      have hvalid := valid_of_found hentry
      obtain ⟨perms, hdir, hsearch⟩ := h.above pre name (by rw [← hpre]; simp)
      obtain ⟨hnil, hdot, hdotDot⟩ := (hvalid name (by simp [← hpre])).ordinary
      -- what the name leads to is a directory above or what is there
      have hnext : ∃ entry', fs.find (pre ++ [name]) = some entry' ∧
          ∀ target, entry' ≠ .symlink target := by
        cases suf with
        | nil => exact ⟨entry, by rw [hpre, hentry], hlink⟩
        | cons name' suf =>
          obtain ⟨perms', hdir', -⟩ := h.above (pre ++ [name]) name' (by rw [← hpre]; simp)
          exact ⟨_, hdir', by simp⟩
      obtain ⟨entry', hfound, hnot⟩ := hnext
      have hrest := ih (pre ++ [name]) (by simpa using hpre)
      rw [List.cons_append, walk_cons]
      cases entry' with
      | symlink target => exact absurd rfl (hnot target)
      | file => simpa [hdir, hsearch, hnil, hdot, hdotDot, hfound] using hrest
      | directory perms' => simpa [hdir, hsearch, hnil, hdot, hdotDot, hfound] using hrest
  exact hgo loc [] rfl

end FileSystem

open FileSystem

section

variable {fs : FileSystem} {loc : Location}

theorem pathname_head (loc : Location) : (pathname loc).head? = some Path.separator := by
  cases loc <;> simp [pathname]

theorem names_pathname (h : ∀ name ∈ loc, ValidName name) : names (pathname loc) = loc := by
  by_cases hnil : loc = []
  · subst hnil
    rfl
  · rw [pathname, if_neg hnil]
    clear hnil
    induction loc with
    | nil => rfl
    | cons name loc ih =>
      obtain ⟨hname, hrest⟩ := List.forall_mem_cons.mp h
      have htail : ∀ c ∈ (loc.flatMap fun name => Path.separator :: name).head?,
          c = Path.separator := by
        cases loc <;> simp
      calc names ((name :: loc).flatMap fun name => Path.separator :: name)
          = runs Path.separator (name ++ loc.flatMap fun name => Path.separator :: name) :=
            runs_sep_cons Path.separator _
        _ = name :: names (loc.flatMap fun name => Path.separator :: name) :=
            runs_append hname.2.1 hname.1 htail
        _ = name :: loc := by rw [ih hrest]

/-- Different entries have different pathnames. -/
theorem pathname_inj {loc' : Location} (h : ∀ name ∈ loc, ValidName name)
    (h' : ∀ name ∈ loc', ValidName name) : pathname loc = pathname loc' ↔ loc = loc' := by
  refine ⟨fun heq => ?_, fun heq => by rw [heq]⟩
  rw [← names_pathname h, heq, names_pathname h']

theorem nul_notMem_pathname (h : ∀ name ∈ loc, ValidName name) : (0 : UInt8) ∉ pathname loc := by
  rw [pathname]
  split
  · decide
  · intro hmem
    obtain ⟨name, hname, hnul⟩ := List.mem_flatMap.mp hmem
    rcases List.mem_cons.mp hnul with hsep | hnul
    · cases hsep
    · exact (h name hname).2.2.1 hnul

theorem cStr_pathname (h : ∀ name ∈ loc, ValidName name) :
    (Path.mk (pathname loc)).cStr = pathname loc := cStr_eq (nul_notMem_pathname h)

/-- Behind the last name there is no separator, but the root directory is one. -/
theorem components_pathname (h : ∀ name ∈ loc, ValidName name) :
    components (pathname loc) = loc ++ if loc = [] then [[]] else [] := by
  rw [components, names_pathname h]
  by_cases hnil : loc = []
  · subst hnil
    rfl
  · obtain ⟨front, name, rfl⟩ : ∃ front name, loc = front ++ [name] :=
      ⟨_, _, (List.dropLast_append_getLast hnil).symm⟩
    obtain ⟨_, hc, hne⟩ := (h name (by simp)).element.1.getLast (h name (by simp)).1
    have hlast : (pathname (front ++ [name])).getLast? ≠ some Path.separator := by
      rw [pathname, if_neg hnil, List.flatMap_append, List.flatMap_singleton,
        List.getLast?_append]
      obtain ⟨c, name, rfl⟩ := List.exists_cons_of_ne_nil (h name (by simp)).1
      simpa [List.getLast?_cons_cons, hc] using hne
    rw [if_neg hlast, if_neg hnil]

/-- **The pathname leads to the location**, and past no link, so that none has to
be followed. -/
theorem FileSystem.Reached.resolves (h : Reached fs loc) (follow : Bool) (budget : Nat) :
    Resolves fs follow budget [] (components (pathname loc)) loc := by
  obtain ⟨entry, hentry, -⟩ := h.found
  rw [components_pathname (valid_of_found hentry), ← walk_eq_ok, h.walk_through]
  by_cases hnil : loc = []
  · subst hnil
    simp [walk_cons, fs.find_root]
  · simp [hnil]

theorem FileSystem.Reached.lookup (h : Reached fs loc) (follow : Bool) :
    fs.lookup follow (pathname loc) = .ok loc := by
  have hne : pathname loc ≠ [] := fun hnil => by simpa [hnil] using pathname_head loc
  rw [FileSystem.lookup, if_neg hne, start, if_pos (pathname_head loc)]
  exact walk_of_resolves (h.resolves follow _)

end

/-! ## §4 The normal form -/

section

variable {fs : FileSystem} {p base c : Path} {loc : Location}

theorem rootName_head (h : p.rootName.path ≠ []) :
    p.path.head? = some Path.separator ∧ p.rootName.path.head? = some Path.separator := by
  unfold Path.rootName at h ⊢
  by_cases hempty : p.path = []
  · simp [hempty] at h
  · rw [if_neg hempty] at h ⊢
    by_cases htwo : p.skipSeparators 0 = 2
    · simp only [if_pos htwo] at h ⊢
      obtain ⟨c, text, htext⟩ := List.exists_cons_of_ne_nil hempty
      -- there are separators, so the first character is one
      have hc : c = Path.separator := by
        by_contra hne
        simp [Path.skipSeparators, htext, hne] at htwo
      rw [htext] at h ⊢
      refine ⟨by rw [hc]; rfl, ?_⟩
      cases hskip : p.skipName (p.skipSeparators 0) with
      | zero => simp [Text.substr, hskip] at h
      | succ n => simp [Text.substr, hc]
    · simp [htwo] at h

/-- A path with a separator in front stays one. -/
theorem head_append {q : Path} (h : p.path.head? = some Path.separator) :
    (p.append q).path.head? = some Path.separator := by
  obtain ⟨behind, hbehind⟩ := Path.exists_append p q
  rw [hbehind, List.head?_append, h]
  rfl

/-- What `absolute` makes begins with a separator, if the working directory does. -/
theorem absolute_head {current : Path} (hcurrent : current.path.head? = some Path.separator) :
    ∀ {fuel : Nat} {p base a : Path}, Path.absolute current fuel p base = some a →
      a.path.head? = some Path.separator
  | 0, _, _, _, h => by cases h
  | fuel + 1, p, base, a, h => by
    rw [Path.absolute] at h
    by_cases hdirectory : p.HasRootDirectory
    · have hhead : p.path.head? = some Path.separator := by
        by_contra hno
        exact hdirectory (by rw [Path.rootDirectory, if_neg hno])
      rw [if_pos hdirectory] at h
      split at h
      · cases h
        exact hhead
      · split at h
        · cases h
          rename_i hbase
          exact head_append (rootName_head hbase).2
        · cases h
          exact hhead
    · rw [if_neg hdirectory] at h
      by_cases hname : p.HasRootName
      · rw [if_pos hname] at h
        split at h
        · cases h
        · cases h
          exact head_append (head_append (head_append (rootName_head hname).2))
      · rw [if_neg hname] at h
        split at h
        · cases h
        · rename_i b hb
          cases h
          exact head_append (absolute_head hcurrent hb)

/-- A path with a separator in front is resolved from the root directory. -/
theorem start_rooted (h : p.path.head? = some Path.separator) (cur : Location) :
    start cur p.cStr = [] := by
  obtain ⟨behind, hbehind⟩ := List.head?_eq_some_iff.mp h
  rw [start, if_pos]
  rw [Path.cStr, hbehind]
  rfl

/-- What is read of a path that has no NUL in its first part. -/
theorem cStr_behind {front : Text} (hnul : (0 : UInt8) ∉ front) :
    (Path.mk (front ++ p.path)).cStr = front ++ p.cStr := by
  rw [Path.cStr, List.takeWhile_append_of_pos, Path.cStr]
  intro c hc
  have : c ≠ 0 := fun h => hnul (h ▸ hc)
  simpa using this

/-- What `canonical` finds can be led to from the root directory. -/
theorem canonical_eq (h : canonical fs p base none = some (c, none)) :
    ∃ a loc, absolute fs p base = some a ∧ fs.lookup true a.cStr = .ok loc ∧ Reached fs loc ∧
      c = ⟨pathname loc⟩ := by
  obtain ⟨a, ha, h⟩ := Option.bind_eq_some_iff.mp h
  unfold realpath at h
  cases hlookup : fs.lookup true a.cStr with
  | error errno => simp [hlookup] at h
  | ok loc =>
    obtain rfl : Path.mk (pathname loc) = c := by simpa [hlookup] using h
    obtain ⟨-, hres⟩ := lookup_eq_ok hlookup
    have hhead : a.path.head? = some Path.separator :=
      @absolute_head (currentPath fs) (pathname_head fs.currentPath) _ _ _ _ ha
    rw [start_rooted hhead] at hres
    exact ⟨a, loc, ha, hlookup, hres.reached fs.reached_root, rfl⟩

theorem rooted_pathname (h : ∀ name ∈ loc, ValidName name) :
    Path.Rooted (Path.mk (pathname loc)).path := by
  cases loc with
  | nil =>
    exact ⟨[Path.separator], [], rfl, by simp [Path.AllSeparators], by simp, by simp, by simp⟩
  | cons name loc =>
    obtain ⟨hname, -⟩ := List.forall_mem_cons.mp h
    refine ⟨[Path.separator], name ++ loc.flatMap fun name => Path.separator :: name,
      by simp [pathname], by simp [Path.AllSeparators], by simp, by simp, ?_⟩
    rw [List.head?_append_of_ne_nil _ hname.1]
    exact fun hhead => hname.2.1 (List.mem_of_mem_head? hhead)

/-- A pathname is its own normal form. -/
theorem FileSystem.Reached.canonical (h : Reached fs loc) (hbase : ¬ base.HasRootName) :
    canonical fs ⟨pathname loc⟩ base none = some (⟨pathname loc⟩, none) := by
  obtain ⟨entry, hentry, -⟩ := h.found
  have hvalid := valid_of_found hentry
  have hrooted := rooted_pathname hvalid
  have habsolute : absolute fs ⟨pathname loc⟩ base = some ⟨pathname loc⟩ := by
    rw [absolute, Path.absolute, if_pos hrooted.hasRootDirectory, if_neg hrooted.not_hasRootName,
      if_neg hbase]
  simp [Filesystem.canonical, habsolute, realpath, cStr_pathname hvalid, h.lookup]

/-- **A normal form.**  When `canonical(p, base)` succeeds, its result is the
pathname of the entry that the name leads to through whatever links there are:
the entry exists and is not a link, the names in its pathname are names of entries
(none is empty, `"."` or `".."`), they lead to the entry from the root directory
without a link to follow, and `canonical` returns the pathname as it is, for
every base without a root name. -/
theorem canonical_normal (h : canonical fs p base none = some (c, none)) :
    ∃ a loc entry, absolute fs p base = some a ∧ fs.lookup true a.cStr = .ok loc ∧
      fs.find loc = some entry ∧ (∀ target, entry ≠ .symlink target) ∧
      c = ⟨pathname loc⟩ ∧ (∀ name ∈ loc, ValidName name) ∧
      (∀ follow, Resolves fs follow 0 [] (components c.cStr) loc) ∧
      ∀ base' : Path, ¬ base'.HasRootName → canonical fs c base' none = some (c, none) := by
  obtain ⟨a, loc, ha, hlookup, hreached, rfl⟩ := canonical_eq h
  obtain ⟨entry, hentry, hlink⟩ := hreached.found
  have hvalid := valid_of_found hentry
  refine ⟨a, loc, entry, ha, hlookup, hentry, hlink, rfl, hvalid, fun follow => ?_,
    fun base' hbase' => hreached.canonical hbase'⟩
  rw [cStr_pathname hvalid]
  exact hreached.resolves follow 0

/-- A file `/a/b`, and links `/l` to it and `/m` to the directory. -/
def linkedFile : FileSystem :=
  FileSystem.ofEntries
    [([[97]], .directory {}), ([[97], [98]], .file), ([[108]], .symlink [109, 47, 46, 47, 98]),
      ([[109]], .symlink [47, 97])] {} 8 (by decide)

theorem canonical_normal_linked :
    ∃ a loc entry, absolute linkedFile ⟨[108]⟩ ⟨[47]⟩ = some a ∧
      linkedFile.lookup true a.cStr = .ok loc ∧
      linkedFile.find loc = some entry ∧ (∀ target, entry ≠ .symlink target) ∧
      (⟨[47, 97, 47, 98]⟩ : Path) = ⟨pathname loc⟩ ∧ (∀ name ∈ loc, ValidName name) ∧
      (∀ follow, Resolves linkedFile follow 0 []
        (components (Path.mk [47, 97, 47, 98]).cStr) loc) ∧
      ∀ base' : Path, ¬ base'.HasRootName →
        canonical linkedFile ⟨[47, 97, 47, 98]⟩ base' none = some (⟨[47, 97, 47, 98]⟩, none) :=
  canonical_normal (p := ⟨[108]⟩) (by decide)

/-! ## §5 Equivalent paths -/

/-- A path that is not empty for those who read it up to a NUL, and has no root
name. -/
structure Given (p : Path) : Prop where
  nonempty : p.cStr ≠ []
  unnamed : ¬ p.HasRootName

theorem currentPath_unnamed (h : Reached fs fs.currentPath) : ¬ (currentPath fs).HasRootName := by
  obtain ⟨entry, hentry, -⟩ := h.found
  exact (rooted_pathname (valid_of_found hentry)).not_hasRootName

/-- A path behind another one, with a separator between them if one is needed. -/
theorem append_front {b : Path} (hb : b.path ≠ []) (hne : p.path ≠ [])
    (hhead : p.path.head? ≠ some Path.separator) :
    ∃ front, (b.append p).path = front ++ p.path ∧ ((0 : UInt8) ∉ b.path → (0 : UInt8) ∉ front) ∧
      front.head? = b.path.head? ∧ ∀ text, names (front ++ text) = names b.path ++ names text := by
  by_cases hlast : b.path.getLast? = some Path.separator
  · obtain ⟨front, hfront⟩ : ∃ front, b.path = front ++ [Path.separator] :=
      ⟨_, (List.dropLast_append_getLast? _ hlast).symm⟩
    have hnil : names [] = [] := rfl
    refine ⟨b.path, by simp [Path.append, hlast], id, rfl, fun text => ?_⟩
    rw [hfront, List.append_assoc, List.singleton_append, names_append_sep, names_append_sep, hnil,
      List.append_nil]
  · refine ⟨b.path ++ [Path.separator], ?_, fun hnul => ?_, ?_, fun text => ?_⟩
    · simp [Path.append, hb, hhead, hlast, hne]
    · have hsep : (0 : UInt8) ≠ Path.separator := by decide
      simp [hnul, hsep]
    · exact List.head?_append_of_ne_nil _ hb
    · rw [List.append_assoc, List.singleton_append, names_append_sep]

/-- Where `absolute` leads to is where the path leads to. -/
theorem lookup_absolute (hcurrent : Reached fs fs.currentPath) (hp : Given p) :
    ∃ a, absolute fs p (currentPath fs) = some a ∧
      fs.lookup true a.cStr = fs.lookup true p.cStr := by
  have hunnamed := currentPath_unnamed hcurrent
  by_cases hdirectory : p.HasRootDirectory
  · exact ⟨p, by rw [absolute, Path.absolute, if_pos hdirectory, if_neg hp.unnamed,
      if_neg hunnamed], rfl⟩
  · obtain ⟨entry, hentry, -⟩ := hcurrent.found
    have hvalid := valid_of_found hentry
    have hhead : p.path.head? ≠ some Path.separator := by
      intro hsep
      refine hdirectory ?_
      have hname : p.rootName.path = [] := not_not.mp hp.unnamed
      simp [Path.HasRootDirectory, Path.rootDirectory, hsep, hname]
    have hne : p.path ≠ [] := fun h => hp.nonempty (by simp [Path.cStr, h])
    have hself : Path.absolute (currentPath fs) 2 (currentPath fs) (currentPath fs) =
        some (currentPath fs) := Path.absolute_self (rooted_pathname hvalid).hasRootDirectory
    refine ⟨(currentPath fs).append p, ?_, ?_⟩
    · rw [absolute, Path.absolute, if_neg hdirectory, if_neg hp.unnamed, hself]
    · have hcurrentHead := pathname_head fs.currentPath
      have hcurrentNe : (currentPath fs).path ≠ [] := fun hnil => by
        simp [show pathname fs.currentPath = [] from hnil] at hcurrentHead
      obtain ⟨front, hpath, hnul, hfront, hnames⟩ := append_front hcurrentNe hne hhead
      have hcStr : ((currentPath fs).append p).cStr = front ++ p.cStr := by
        rw [← cStr_behind (hnul (nul_notMem_pathname hvalid)), Path.cStr, Path.cStr, hpath]
      have hcomponents : components (front ++ p.cStr) = fs.currentPath ++ components p.cStr := by
        have hnamesCurrent : names (currentPath fs).path = fs.currentPath := names_pathname hvalid
        rw [components, components, hnames, hnamesCurrent,
          List.getLast?_append_of_ne_nil _ hp.nonempty, List.append_assoc]
      have hstart : start fs.currentPath p.cStr = fs.currentPath := by
        rw [start, if_neg]
        intro hsep
        obtain ⟨c, text, htext⟩ := List.exists_cons_of_ne_nil hne
        by_cases hc : c = 0
        · simp [Path.cStr, htext, hc] at hsep
        · refine hhead ?_
          simpa [Path.cStr, htext, hc] using hsep
      have hstart' : start fs.currentPath (front ++ p.cStr) = [] := by
        rw [start, if_pos]
        rw [List.head?_append, hfront, currentPath, hcurrentHead]
        rfl
      rw [hcStr, FileSystem.lookup, FileSystem.lookup, if_neg hp.nonempty,
        if_neg (by simp [hp.nonempty]), hcomponents, hstart, hstart', hcurrent.walk_through]

/-- What `canonical` makes of a path is the pathname of where the path leads. -/
theorem canonical_iff (hcurrent : Reached fs fs.currentPath) (hp : Given p) :
    canonical fs p (currentPath fs) none = some (c, none) ↔
      ∃ loc, fs.lookup true p.cStr = .ok loc ∧ c = ⟨pathname loc⟩ := by
  obtain ⟨a, ha, hsame⟩ := lookup_absolute hcurrent hp
  cases hlookup : fs.lookup true p.cStr with
  | error errno => simp [Filesystem.canonical, ha, realpath, hsame, hlookup]
  | ok loc => simp [Filesystem.canonical, ha, realpath, hsame, hlookup, eq_comm]

theorem lookup_reached (hcurrent : Reached fs fs.currentPath) {text : Text}
    (h : fs.lookup true text = .ok loc) : Reached fs loc := by
  obtain ⟨-, hres⟩ := lookup_eq_ok h
  refine hres.reached ?_
  rw [start]
  split
  · exact fs.reached_root
  · exact hcurrent

end

end Acatl.Filesystem
