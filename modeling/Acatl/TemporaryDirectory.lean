/-
Acatl.TemporaryDirectory — `TemporaryDirectoryGuard` (`filesystem.cpp`).

A guard makes a directory in the one for temporary files, and takes it away with
`remove_all` when it ends. It has to find the directory again by its path, in a
file system that has changed since, and to remove what is in it.

What `::getenv` returns and the characters that `::mkdtemp` finds are given.
That a path is too long for `::mkdtemp`, and that the working directory was
removed, is left out.

  §1  the functions;
  §2  what is the same where there are fewer entries;
  §3  an entry with all that is below it (`Removable`);
  §4  `removeAll_whole`: it is removed as a whole;
  §5  `guard_restores`: the file system is the one from before the guard.
-/
import Acatl.Canonical
import Acatl.RemoveAll

namespace Acatl.Filesystem

open Acatl.Lib FileSystem

/-! ## §1 The functions -/

/-- A value in the environment, which is read up to a NUL. -/
abbrev Value := { text : Text // (0 : UInt8) ∉ text }

/-- What `::getenv` returns for the names that `temp_directory_path` asks for. -/
structure Environment where
  TMPDIR : Option Value := none
  TMP : Option Value := none
  TEMP : Option Value := none
  TEMPDIR : Option Value := none

/-- `"/tmp"`. -/
def tmp : Value := ⟨[47, 116, 109, 112], by decide⟩

/-- The directory for temporary files. -/
def Environment.value (env : Environment) : Value :=
  (env.TMPDIR <|> env.TMP <|> env.TEMP <|> env.TEMPDIR).getD tmp

/-- `temp_directory_path(ec)`. -/
def tempDirectoryPath (env : Environment) (fs : FileSystem) : Path × ErrorCode :=
  let p : Path := ⟨env.value⟩
  if p.path = [] ∨ (status fs p).1 ≠ .directory then (p, some .ENOTDIR)
  else (p, (status fs p).2)

/-- `"acatl_"`. -/
def template : Text := [97, 99, 97, 116, 108, 95]

/-- What `::mkdtemp` puts in the place of `"XXXXXX"`. -/
structure Unique where
  text : Text
  plain : Path.Plain text

/-- The name of the directory that is made. -/
def Unique.name (unique : Unique) : Name := template ++ unique.text

/-- How `unique_temp_directory_path` ends: with a path, with an exception, or
with a path that is made of a null pointer. -/
inductive Construction where
  | constructed (p : Path) (fs : FileSystem)
  | threw (errno : Errno)
  | undefined

/-- `unique_temp_directory_path()`, from which the guard has its path. -/
def uniqueTempDirectoryPath (env : Environment) (unique : Unique) (fs : FileSystem) :
    Construction :=
  let (p, ec) := tempDirectoryPath env fs
  match ec with
  | some errno => .threw errno
  | none =>
    let tmpl := (p.append ⟨unique.name⟩).cStr
    match fs.mkdir {} tmpl with
    | .error _ => .undefined
    | .ok fs => .constructed ⟨tmpl⟩ fs

/-- The file system with the process in another directory. -/
def FileSystem.within (fs : FileSystem) (cwd : Location) : FileSystem :=
  { fs with currentPath := cwd }

/-- `::chdir`. -/
def FileSystem.chdir (fs : FileSystem) (text : Text) : Except Errno FileSystem :=
  match fs.lookup true text with
  | .error errno => .error errno
  | .ok loc =>
    match fs.find loc with
    | none => .error .ENOENT
    | some (.directory perms) =>
      if perms.searchable then .ok (fs.within loc) else .error .EACCES
    | some _ => .error .ENOTDIR

/-- How the destructor ends: an exception ends the program. -/
inductive Ending where
  | ended
  | terminated
  deriving DecidableEq

/-- `~TemporaryDirectoryGuard`, with a bound for the depth of `remove_all`. -/
def destroyGuard (path : Path) (fuel : Nat) (fs : FileSystem) : Option (Ending × FileSystem) :=
  let (same, ec) := equivalent fs (currentPath fs) path
  match if same then fs.chdir dotDotName else .ok fs with
  | .error _ => some (.terminated, fs)
  | .ok fs =>
    match ec with
    | some _ => some (.ended, fs)
    | none =>
      match removeAll fuel fs path with
      | none => none
      | some (.threw, fs) => some (.terminated, fs)
      | some (.returned _ _, fs) => some (.ended, fs)

/-! ## §2 Where there are fewer entries -/

namespace FileSystem

variable {fs fs' : FileSystem} {follow : Bool} {budget : Nat}

theorem walk_of_fewer_of_expand (hfs : ∀ loc, fs'.find loc = none ∨ fs'.find loc = fs.find loc)
    (hexpand : ∀ cur target rest, fs'.expand follow budget cur target rest =
      fs.expand follow budget cur target rest ∨
      fs'.expand follow budget cur target rest = .error .ENOENT) (cur : Location)
    (ns : List Name) :
    fs'.walk follow budget cur ns = fs.walk follow budget cur ns ∨
      fs'.walk follow budget cur ns = .error .ENOENT := by
  induction ns generalizing cur with
  | nil => exact .inl (by simp)
  | cons name rest ih =>
    rcases hfs cur with hnone | hsame
    · exact .inr (walk_missing hnone)
    rw [walk_cons, walk_cons, hsame]
    cases hfind : fs.find cur with
    | none => exact .inl rfl
    | some entry =>
      cases entry with
      | file => exact .inl rfl
      | symlink target => exact .inl rfl
      | directory perms =>
        by_cases hnil : name = []
        · simpa [hnil] using ih cur
        by_cases hsearch : perms.searchable = false
        · simp [hnil, hsearch]
        by_cases hdot : name = dotName
        · simpa [hsearch, hdot, dotName_ne_nil] using ih cur
        by_cases hdotDot : name = dotDotName
        · simpa [hsearch, hdotDot, dotDotName_ne_nil, dotDotName_ne_dotName] using ih cur.dropLast
        rcases hfs (cur ++ [name]) with hnone | hsame
        · simp [hnil, hsearch, hdot, hdotDot, hnone]
        · cases hfound : fs.find (cur ++ [name]) with
          | none => simp [hnil, hsearch, hdot, hdotDot, hsame, hfound]
          | some found =>
            cases found with
            | file => simpa [hnil, hsearch, hdot, hdotDot, hsame, hfound] using ih _
            | directory perms' => simpa [hnil, hsearch, hdot, hdotDot, hsame, hfound] using ih _
            | symlink target =>
              by_cases hlast : rest = [] ∧ follow = false
              · simp [hnil, hsearch, hdot, hdotDot, hsame, hfound, hlast]
              · simpa [hnil, hsearch, hdot, hdotDot, hsame, hfound, hlast] using
                  hexpand cur target rest

/-- Where there are fewer entries, names are resolved as before, with the same
error if there was one, or they are not found. -/
theorem walk_of_fewer (hfs : ∀ loc, fs'.find loc = none ∨ fs'.find loc = fs.find loc)
    (cur : Location) (ns : List Name) :
    fs'.walk follow budget cur ns = fs.walk follow budget cur ns ∨
      fs'.walk follow budget cur ns = .error .ENOENT := by
  induction budget generalizing cur ns with
  | zero => exact walk_of_fewer_of_expand hfs (fun _ _ _ => .inl rfl) cur ns
  | succ budget ih =>
    refine walk_of_fewer_of_expand hfs (fun cur target rest => ?_) cur ns
    rw [expand, expand]
    split
    · exact .inl rfl
    · exact ih _ _

/-- What is not taken for a directory is not taken for one where there are fewer
entries. -/
theorem isDirectory_of_fewer (hfs : ∀ loc, fs'.find loc = none ∨ fs'.find loc = fs.find loc)
    (hmax : fs'.symloopMax = fs.symloopMax) {p : Path}
    (hstart : start fs'.currentPath p.cStr = start fs.currentPath p.cStr)
    (h : isDirectory fs p = some false) : isDirectory fs' p = some false := by
  have hlookup : fs'.lookup true p.cStr = fs.lookup true p.cStr ∨
      fs'.lookup true p.cStr = .error .ENOENT := by
    rw [lookup, lookup, hmax, hstart]
    split
    · exact .inl rfl
    · exact walk_of_fewer hfs _ _
  have hstat : fs'.stat true p.cStr = fs.stat true p.cStr ∨
      fs'.stat true p.cStr = .error .ENOENT := by
    rcases hlookup with hsame | hmissing
    · rw [stat, stat, hsame]
      cases fs.lookup true p.cStr with
      | error errno => exact .inl rfl
      | ok loc =>
        rcases hfs loc with hnone | hfound
        · exact .inr (by simp [hnone])
        · exact .inl (by simp [hfound])
    · exact .inr (by simp [stat, hmissing])
  rw [isDirectory, status] at h ⊢
  rcases hstat with hsame | hmissing
  · rwa [hsame]
  · rw [hmissing]
    rfl

theorem Resolves.mono {cur loc : Location} {ns : List Name}
    (hfs : ∀ loc entry, fs.find loc = some entry → fs'.find loc = some entry)
    (h : Resolves fs follow budget cur ns loc) : Resolves fs' follow budget cur ns loc := by
  induction h with
  | done budget cur => exact .done budget cur
  | slash hdir h ih => exact .slash (hfs _ _ hdir) ih
  | dot hdir hsearch h ih => exact .dot (hfs _ _ hdir) hsearch ih
  | dotDot hdir hsearch h ih => exact .dotDot (hfs _ _ hdir) hsearch ih
  | entry hdir hsearch hname hfound hlink h ih =>
    exact .entry (hfs _ _ hdir) hsearch hname (hfs _ _ hfound) hlink ih
  | last budget hdir hsearch hname hfound hfollow =>
    exact .last budget (hfs _ _ hdir) hsearch hname (hfs _ _ hfound) hfollow
  | link hdir hsearch hname hfound hlast htarget h ih =>
    exact .link (hfs _ _ hdir) hsearch hname (hfs _ _ hfound) hlast htarget ih

/-- Names behind others, with no link among them to follow. -/
theorem Resolves.append {cur mid loc : Location} {front back : List Name} (hne : back ≠ [])
    (h : Resolves fs true budget cur front mid) (hback : Resolves fs follow 0 mid back loc) :
    Resolves fs follow budget cur (front ++ back) loc := by
  induction h with
  | done budget cur => exact hback.weaken (Nat.zero_le budget)
  | slash hdir h ih => exact .slash hdir (ih hback)
  | dot hdir hsearch h ih => exact .dot hdir hsearch (ih hback)
  | dotDot hdir hsearch h ih => exact .dotDot hdir hsearch (ih hback)
  | entry hdir hsearch hname hfound hlink h ih =>
    exact .entry hdir hsearch hname hfound hlink (ih hback)
  | last budget hdir hsearch hname hfound hfollow => cases hfollow
  | link hdir hsearch hname hfound hlast htarget h ih =>
    have hrest := ih hback
    rw [List.append_assoc] at hrest
    exact .link hdir hsearch hname hfound (by simp [hne]) htarget hrest

/-- The names of an entry lead down to it. -/
theorem resolves_down {cur : Location} {ns : List Name} {entry : Entry}
    (hfound : fs.find (cur ++ ns) = some entry)
    (hsearch : ∀ back perms, back <+: ns → fs.find (cur ++ back) = some (.directory perms) →
      perms.searchable = true)
    (hlink : follow = false ∨ ∀ target, entry ≠ .symlink target) :
    Resolves fs follow 0 cur ns (cur ++ ns) := by
  induction ns generalizing cur with
  | nil => simpa using Resolves.done 0 cur
  | cons name rest ih =>
    have hmem : cur ++ name :: rest ∈ fs.locations := mem_locations_of_find (by simp) hfound
    obtain ⟨perms, hdir⟩ := directory_of_prefix hmem (List.prefix_append cur _) (by simp)
    have hcur : perms.searchable = true :=
      hsearch [] perms List.nil_prefix (by simpa using hdir)
    have hname := (valid_of_found hfound name (by simp)).ordinary
    have hbelow : Resolves fs follow 0 (cur ++ [name]) rest (cur ++ [name] ++ rest) := by
      refine ih (by rwa [← List.append_cons]) fun back perms' hback hdir' => ?_
      refine hsearch (name :: back) perms' (List.cons_prefix_cons.mpr ⟨rfl, hback⟩) ?_
      rwa [List.append_cons]
    rw [List.append_cons]
    cases rest with
    | nil =>
      cases entry with
      | file => exact .entry hdir hcur hname hfound (by simp) hbelow
      | directory perms' => exact .entry hdir hcur hname hfound (by simp) hbelow
      | symlink target =>
        have hfollow : follow = false := hlink.resolve_right fun hnot => hnot target rfl
        simpa using Resolves.last 0 hdir hcur hname hfound hfollow
    | cons name' rest =>
      -- on the way there is a directory
      have hprefix : cur ++ [name] <+: cur ++ name :: name' :: rest :=
        ⟨name' :: rest, by simp⟩
      obtain ⟨perms', hdir'⟩ := directory_of_prefix hmem hprefix (by simp)
      exact .entry hdir hcur hname hdir' (by simp) hbelow

end FileSystem

/-! ## §3 An entry with all that is below it -/

section

variable {outside fs fs' : FileSystem} {d : Path} {dir : Location} {name : Name} {ns : List Name}

/-- The entry `name` of a directory can be removed with all that is below it:
what there is outside of it leads to the directory, entries can be removed from
the directory and from those below, and no link there is taken for a directory,
or is one that has no status. -/
structure Removable (outside fs : FileSystem) (d : Path) (dir : Location) (name : Name) : Prop where
  nonempty : d.path ≠ []
  nul : (0 : UInt8) ∉ d.path
  agree : ∀ loc entry, outside.find loc = some entry → fs.find loc = some entry
  absent : outside.find (dir ++ [name]) = none
  found : Resolves outside true fs.symloopMax (start fs.currentPath d.path) (names d.path) dir
  directory : ∃ perms, outside.find dir = some (.directory perms) ∧ perms.searchable = true ∧
    perms.writable = true
  usable : ∀ ns perms, fs.find (dir ++ name :: ns) = some (.directory perms) →
    perms = ⟨true, true, true⟩
  links : ∀ ns target, fs.find (dir ++ name :: ns) = some (.symlink target) →
    isDirectory fs (d.appendAll (name :: ns)) = some false

/-- The path of an entry below a directory. -/
structure Behind (d : Path) (ns : List Name) (q : Path) : Prop where
  nonempty : q.path ≠ []
  nul : (0 : UInt8) ∉ q.path
  head : q.path.head? = d.path.head?
  names : names q.path = names d.path ++ ns
  last : ns ≠ [] → q.path.getLast? ≠ some Path.separator

theorem behind (hne : d.path ≠ []) (hnul : (0 : UInt8) ∉ d.path) (h : ∀ n ∈ ns, ValidName n) :
    Behind d ns (d.appendAll ns) := by
  induction ns using List.reverseRecOn with
  | nil => exact ⟨hne, hnul, rfl, by simp, by simp⟩
  | append_singleton ns n ih =>
    have hns := ih fun m hm => h m (by simp [hm])
    have hn := (h n (by simp)).element
    have hlast : (components ((d.appendAll ns).append ⟨n⟩).path) =
        names (d.appendAll ns).path ++ [n] := components_append hns.nonempty hn
    rw [Path.appendAll_concat]
    refine ⟨?_, nul_notMem_append hns.nul hn, ?_, ?_, fun _ hsep => ?_⟩
    · exact fun hnil => by simpa [hnil, names, hns.names] using (names_append hns.nonempty hn).symm
    · rw [append_head hns.nonempty, hns.head]
    · rw [names_append hns.nonempty hn, hns.names, List.append_assoc]
    · rw [components, if_pos hsep, names_append hns.nonempty hn] at hlast
      simp at hlast

@[simp] theorem exists_ofEntry (entry : Entry) : (FileType.ofEntry entry).exists = true := by
  cases entry <;> rfl

theorem not_prefix_of_lt {loc below : Location} (h : loc.length < below.length) :
    ¬ below <+: loc := fun hprefix => Nat.not_le.mpr h hprefix.length_le

theorem Removable.behind (h : Removable outside fs d dir name) {entry : Entry}
    (hfound : fs.find (dir ++ name :: ns) = some entry) :
    Behind d (name :: ns) (d.appendAll (name :: ns)) :=
  Filesystem.behind h.nonempty h.nul fun n hn =>
    valid_of_found hfound n (List.mem_append_right dir hn)

/-- Below an entry that is not there, there is none. -/
theorem find_below_absent {loc below : Location} (hloc : loc ≠ []) (h : fs.find loc = none)
    (hbelow : loc <+: below) : fs.find below = none := by
  cases hfind : fs.find below with
  | none => rfl
  | some entry =>
    have hne : below ≠ [] := fun hnil => hloc (List.prefix_nil.mp (hnil ▸ hbelow))
    by_cases hsame : loc = below
    · rw [← hsame, h] at hfind
      cases hfind
    · obtain ⟨perms, hdir⟩ := directory_of_prefix (mem_locations_of_find hne hfind) hbelow hsame
      rw [h] at hdir
      cases hdir

/-- Names can be removed from the directory of each entry. -/
theorem Removable.above (h : Removable outside fs d dir name) {front : List Name} {perms : Perms}
    (hfront : front = [] ∨ ∃ back, front = name :: back)
    (hdir : fs.find (dir ++ front) = some (.directory perms)) :
    perms.searchable = true ∧ perms.writable = true := by
  rcases hfront with rfl | ⟨back, rfl⟩
  · obtain ⟨perms', hperms, husable⟩ := h.directory
    rw [List.append_nil, h.agree _ _ hperms] at hdir
    cases hdir
    exact husable
  · rw [h.usable back perms hdir]
    exact ⟨rfl, rfl⟩

/-- **Each entry is found by its path.** -/
theorem Removable.lookup (h : Removable outside fs d dir name) {entry : Entry}
    (hfound : fs.find (dir ++ name :: ns) = some entry) {follow : Bool}
    (hlink : follow = false ∨ ∀ target, entry ≠ .symlink target) :
    fs.lookup follow (d.appendAll (name :: ns)).cStr = .ok (dir ++ name :: ns) := by
  have hq := h.behind hfound
  have hdown : Resolves fs follow 0 dir (name :: ns) (dir ++ name :: ns) := by
    refine resolves_down hfound (fun back perms hback hdir => ?_) hlink
    refine (h.above ?_ hdir).1
    rcases List.prefix_cons_iff.mp hback with rfl | ⟨back, rfl, -⟩
    · exact .inl rfl
    · exact .inr ⟨back, rfl⟩
  rw [cStr_eq hq.nul, FileSystem.lookup, if_neg hq.nonempty, start, hq.head, components,
    if_neg (hq.last (by simp)), List.append_nil, hq.names]
  exact walk_eq_ok.mpr ((h.found.mono h.agree).append (by simp) hdown)

theorem Removable.symlinkStatus (h : Removable outside fs d dir name) {entry : Entry}
    (hfound : fs.find (dir ++ name :: ns) = some entry) :
    symlinkStatus fs (d.appendAll (name :: ns)) = (.ofEntry entry, none) := by
  have hstat := stat_eq_ok.mpr ⟨_, h.lookup hfound (.inl rfl), hfound⟩
  rw [Filesystem.symlinkStatus, hstat]
  rfl

/-- **An entry with nothing below it is removed.** -/
theorem Removable.remove (h : Removable outside fs d dir name) {entry : Entry}
    (hfound : fs.find (dir ++ name :: ns) = some entry)
    (hempty : fs.children (dir ++ name :: ns) = []) :
    remove fs (d.appendAll (name :: ns)) = (true, none, fs.erase _ hempty) := by
  have hq := h.behind hfound
  obtain ⟨front, last, hsplit⟩ : ∃ front last, name :: ns = front ++ [last] :=
    ⟨_, _, (List.dropLast_append_getLast (List.cons_ne_nil name ns)).symm⟩
  have hlast : (names (d.appendAll (name :: ns)).path).getLast? = some last := by
    rw [hq.names, hsplit, ← List.append_assoc, List.getLast?_concat]
  obtain ⟨hnil, hdot, hdotDot⟩ :=
    (valid_of_found hfound last (by simp [hsplit])).ordinary
  -- the directory that the last name is in
  have hmem : dir ++ name :: ns ∈ fs.locations := mem_locations_of_find (by simp) hfound
  have habove : dir ++ front <+: dir ++ name :: ns := ⟨[last], by simp [hsplit]⟩
  obtain ⟨perms, hdir⟩ := directory_of_prefix hmem habove (by simp [hsplit])
  have hfront : front = [] ∨ ∃ back, front = name :: back := by
    cases front with
    | nil => exact .inl rfl
    | cons first back => exact .inr ⟨back, by rw [(List.cons.inj hsplit).1]⟩
  obtain ⟨-, hwrite⟩ := h.above hfront hdir
  have hdropLast : (dir ++ name :: ns).dropLast = dir ++ front := by
    rw [hsplit, ← List.append_assoc, List.dropLast_concat]
  have hwalk := (lookup_eq_ok (h.lookup hfound (.inl rfl))).2
  rw [cStr_eq hq.nul, components, if_neg (hq.last (by simp)), List.append_nil] at hwalk
  have hremove : fs.remove (d.appendAll (name :: ns)).cStr = .ok (fs.erase _ hempty) := by
    rw [cStr_eq hq.nul, FileSystem.remove]
    simp only [hlast, if_neg hdot, if_neg hdotDot, walk_of_resolves hwalk, hfound, hdropLast, hdir]
    simp [hq.last (List.cons_ne_nil name ns), hwrite, hempty]
  simp [Filesystem.remove, h.symlinkStatus hfound, hremove]

/-! ## §4 The whole of it -/

/-- The entries at some locations have been removed, and `count` is how many. -/
structure Dropped (fs : FileSystem) (gone : Location → Prop) (count : UInt64)
    (fs' : FileSystem) : Prop where
  remains : Remains fs' fs
  locations : ∀ loc, loc ∈ fs'.locations ↔ loc ∈ fs.locations ∧ ¬ gone loc
  counted : count = UInt64.ofNat (fs.entries.length - fs'.entries.length)

variable {gone gone' : Location → Prop} {count count' : UInt64}

theorem Dropped.refl (fs : FileSystem) : Dropped fs (fun _ => False) 0 fs :=
  ⟨Remains.refl fs, by simp, by simp⟩

theorem Dropped.trans {fs'' : FileSystem} (h : Dropped fs gone count fs')
    (h' : Dropped fs' gone' count' fs'') :
    Dropped fs (fun loc => gone loc ∨ gone' loc) (count + count') fs'' where
  remains := h'.remains.trans h.remains
  locations loc := by rw [h'.locations, h.locations, and_assoc, not_or]
  counted := by
    have hle := h.remains.length_le
    have hle' := h'.remains.length_le
    rw [h.counted, h'.counted, ← UInt64.ofNat_add]
    congr 1
    omega

theorem Dropped.of_iff (h : Dropped fs gone count fs')
    (hgone : ∀ loc ∈ fs.locations, gone loc ↔ gone' loc) : Dropped fs gone' count fs' :=
  ⟨h.remains, fun loc => by
    rw [h.locations]
    exact and_congr_right fun hmem => not_congr (hgone loc hmem), h.counted⟩

theorem Dropped.find (h : Dropped fs gone count fs') {loc : Location} (hkept : ¬ gone loc) :
    fs'.find loc = fs.find loc := by
  rcases h.remains.find loc with hnone | hsame
  · by_cases hnil : loc = []
    · subst hnil
      rw [FileSystem.find, FileSystem.find, if_pos rfl, if_pos rfl, h.remains.root]
    · rw [hnone, eq_comm, find_eq_none hnil]
      intro hmem
      exact (find_eq_none hnil).mp hnone ((h.locations loc).mpr ⟨hmem, hkept⟩)
  · exact hsame

theorem Dropped.find_gone (h : Dropped fs gone count fs') {loc : Location} (hnil : loc ≠ [])
    (hgone : gone loc) : fs'.find loc = none :=
  (find_eq_none hnil).mpr fun hmem => ((h.locations loc).mp hmem).2 hgone

/-- With entries gone that belong to it, it can still be removed. -/
theorem Removable.dropped (h : Removable outside fs d dir name) (hfs : Dropped fs gone count fs')
    (hgone : ∀ loc, gone loc → dir ++ [name] <+: loc) : Removable outside fs' d dir name where
  nonempty := h.nonempty
  nul := h.nul
  agree loc entry hentry := by
    rw [hfs.find, h.agree loc entry hentry]
    intro hloc
    rw [find_below_absent (by simp) h.absent (hgone loc hloc)] at hentry
    cases hentry
  absent := h.absent
  found := by
    rw [hfs.remains.symloopMax, hfs.remains.currentPath]
    exact h.found
  directory := h.directory
  usable ns perms hdir := h.usable ns perms (hfs.remains.find_eq_some hdir)
  links ns target hlink :=
    isDirectory_of_fewer hfs.remains.find hfs.remains.symloopMax (by rw [hfs.remains.currentPath])
      (h.links ns target (hfs.remains.find_eq_some hlink))

/-- An entry with nothing below it is all that is removed with it. -/
theorem dropped_erase {loc : Location} (hmem : loc ∈ fs.locations)
    (hempty : fs.children loc = []) : Dropped fs (loc <+: ·) 1 (fs.erase loc hempty) where
  remains := remains_erase hempty
  locations other := by
    rw [locations_erase, List.Nodup.mem_erase_iff (show fs.locations.Nodup from fs.nodup),
      and_comm]
    refine and_congr_right fun hother => ⟨fun hne hprefix => ?_, fun hnot heq => ?_⟩
    · obtain ⟨rest, rfl⟩ := hprefix
      obtain ⟨n, rest, rfl⟩ : ∃ n rest', rest = n :: rest' :=
        List.exists_cons_of_ne_nil fun hnil => hne (by simp [hnil])
      -- the first name below would be that of an entry
      have hchild : loc ++ [n] ∈ fs.locations := by
        by_cases hsame : loc ++ [n] = loc ++ n :: rest
        · rwa [hsame]
        · obtain ⟨perms, hdir⟩ := directory_of_prefix hother ⟨rest, by simp⟩ hsame
          exact mem_locations_of_find (by simp) hdir
      have := fs.mem_children.mpr hchild
      rw [hempty] at this
      cases this
    · exact hnot (heq ▸ List.prefix_refl loc)
  counted := by
    have hlen := erase_length hmem hempty
    rw [show fs.entries.length - (fs.erase loc hempty).entries.length = 1 from by omega]
    rfl

theorem children_eq_nil {loc : Location} {entry : Entry} (h : fs.find loc = some entry)
    (hentry : ∀ perms, entry ≠ .directory perms) : fs.children loc = [] := by
  rw [List.eq_nil_iff_forall_not_mem]
  intro n hn
  obtain ⟨perms, hdir⟩ :=
    directory_of_prefix (fs.mem_children.mp hn) (List.prefix_append loc [n]) (by simp)
  rw [h] at hdir
  cases hdir
  exact hentry perms rfl

/-- What the calls of a loop over the entries of a directory do. -/
def RemovesEach (call : FileSystem → Path → Option (Outcome × FileSystem)) (depth : Nat)
    (outside : FileSystem) (d : Path) (dir : Location) (name : Name) (ns : List Name) : Prop :=
  ∀ fs n entry, Removable outside fs d dir name → (∀ loc ∈ fs.locations, loc.length ≤ depth) →
    fs.find (dir ++ name :: (ns ++ [n])) = some entry →
    ∃ count fs', call fs ((d.appendAll (name :: ns)).append ⟨n⟩) =
        some (.returned count none, fs') ∧
      Dropped fs (dir ++ name :: (ns ++ [n]) <+: ·) count fs'

/-- The loop goes through to the end, and leaves nothing of what it goes through. -/
theorem Removable.entries {call : FileSystem → Path → Option (Outcome × FileSystem)} {depth : Nat}
    (hcall : RemovesEach call depth outside d dir name ns) {todo : List Name}
    (h : Removable outside fs d dir name) (hdepth : ∀ loc ∈ fs.locations, loc.length ≤ depth)
    (htodo : ∀ n ∈ todo, n ∈ fs.children (dir ++ name :: ns)) (hnodup : todo.Nodup)
    (sum : UInt64) :
    ∃ total fs', removeEntries call (d.appendAll (name :: ns)) fs sum none todo =
        some (.returned (sum + total) none, fs') ∧
      Dropped fs (fun loc => ∃ n ∈ todo, dir ++ name :: (ns ++ [n]) <+: loc) total fs' := by
  induction todo generalizing fs sum with
  | nil =>
    refine ⟨0, fs, by simp [removeEntries], (Dropped.refl fs).of_iff fun loc _ => by simp⟩
  | cons n todo ih =>
    obtain ⟨hnotMem, hnodup⟩ := List.nodup_cons.mp hnodup
    have hmem : dir ++ name :: (ns ++ [n]) ∈ fs.locations := by
      simpa using fs.mem_children.mp (htodo n (List.mem_cons_self ..))
    obtain ⟨⟨loc, entry⟩, he, hloc⟩ := List.mem_map.mp hmem
    have hfound : fs.find (dir ++ name :: (ns ++ [n])) = some entry :=
      (find_eq_some (by simp)).mpr (hloc ▸ he)
    obtain ⟨count, fs₁, hone, hdropped⟩ := hcall fs n entry h hdepth hfound
    have h₁ : Removable outside fs₁ d dir name :=
      h.dropped hdropped fun loc hprefix =>
        List.IsPrefix.trans ⟨ns ++ [n], by simp⟩ hprefix
    -- the call has left the entries that are still to come
    have htodo₁ : ∀ m ∈ todo, m ∈ fs₁.children (dir ++ name :: ns) := by
      intro m hm
      have hin := fs.mem_children.mp (htodo m (List.mem_cons_of_mem n hm))
      refine fs₁.mem_children.mpr ((hdropped.locations _).mpr ⟨hin, fun hprefix => ?_⟩)
      have heq := hprefix.eq_of_length (by simp)
      have hsame : n = m := by simpa using heq
      exact hnotMem (hsame ▸ hm)
    obtain ⟨total, fs₂, hrest, hdropped₂⟩ :=
      ih h₁ (fun loc hin => hdepth loc (hdropped.remains.locations.subset hin)) htodo₁ hnodup
        (sum + count)
    refine ⟨count + total, fs₂, ?_, (hdropped.trans hdropped₂).of_iff fun loc _ => by simp⟩
    rw [removeEntries, hone]
    simp only [hrest, UInt64.add_assoc]

theorem Removable.leaf (h : Removable outside fs d dir name) {entry : Entry}
    (hfound : fs.find (dir ++ name :: ns) = some entry)
    (hentry : ∀ perms, entry ≠ .directory perms)
    (hdirectory : isDirectory fs (d.appendAll (name :: ns)) = some false) (fuel : Nat) :
    ∃ count fs', removeAll (fuel + 1) fs (d.appendAll (name :: ns)) =
        some (.returned count none, fs') ∧
      Dropped fs (dir ++ name :: ns <+: ·) count fs' := by
  have hempty := children_eq_nil hfound hentry
  refine ⟨1, fs.erase _ hempty, ?_, dropped_erase (mem_locations_of_find (by simp) hfound) hempty⟩
  simp [removeAll, h.symlinkStatus hfound, hdirectory, h.remove hfound hempty]

/-- A call, when those for the entries of a directory do what they are to do. -/
theorem Removable.step {fuel depth : Nat}
    (hcall : RemovesEach (removeAll fuel) depth outside d dir name ns)
    (h : Removable outside fs d dir name) (hdepth : ∀ loc ∈ fs.locations, loc.length ≤ depth)
    {entry : Entry} (hfound : fs.find (dir ++ name :: ns) = some entry) :
    ∃ count fs', removeAll (fuel + 1) fs (d.appendAll (name :: ns)) =
        some (.returned count none, fs') ∧
      Dropped fs (dir ++ name :: ns <+: ·) count fs' := by
  cases entry with
  | file =>
    have hstat : fs.stat true (d.appendAll (name :: ns)).cStr = .ok .file :=
      stat_eq_ok.mpr ⟨_, h.lookup hfound (.inr (by simp)), hfound⟩
    have hdirectory : isDirectory fs (d.appendAll (name :: ns)) = some false := by
      rw [isDirectory, status, hstat]
      rfl
    exact h.leaf hfound (by simp) hdirectory fuel
  | symlink target => exact h.leaf hfound (by simp) (h.links ns target hfound) fuel
  | directory perms =>
    obtain rfl := h.usable ns perms hfound
    have hlookup : fs.lookup true (d.appendAll (name :: ns)).cStr = .ok (dir ++ name :: ns) :=
      h.lookup hfound (.inr (by simp))
    have hdirectory : isDirectory fs (d.appendAll (name :: ns)) = some true := by
      rw [isDirectory, status, stat_eq_ok.mpr ⟨_, hlookup, hfound⟩]
      rfl
    have hopen : fs.opendir (d.appendAll (name :: ns)).cStr =
        .ok (fs.children (dir ++ name :: ns)) := by
      rw [opendir, hlookup]
      exact list_eq_ok.mpr ⟨_, hfound, rfl, rfl⟩
    obtain ⟨total, fs₁, hloop, hdropped⟩ :=
      h.entries hcall hdepth (fun n hn => hn) (children_nodup fs _) 0
    have h₁ : Removable outside fs₁ d dir name := h.dropped hdropped fun loc hloc => by
      obtain ⟨n, -, hprefix⟩ := hloc
      exact List.IsPrefix.trans ⟨ns ++ [n], by simp⟩ hprefix
    -- the directory is left, and nothing in it
    have hfound₁ : fs₁.find (dir ++ name :: ns) = some (.directory ⟨true, true, true⟩) := by
      rw [hdropped.find, hfound]
      rintro ⟨n, -, hprefix⟩
      exact not_prefix_of_lt (by simp) hprefix
    have hempty : fs₁.children (dir ++ name :: ns) = [] := by
      rw [List.eq_nil_iff_forall_not_mem]
      intro n hn
      obtain ⟨hmem, hnot⟩ := (hdropped.locations _).mp (fs₁.mem_children.mp hn)
      exact hnot ⟨n, fs.mem_children.mpr hmem, by simp⟩
    have hlast := dropped_erase (mem_locations_of_find (by simp) hfound₁) hempty
    refine ⟨total + 1, fs₁.erase _ hempty, ?_, (hdropped.trans hlast).of_iff fun loc _ => ?_⟩
    · simp [removeAll, h.symlinkStatus hfound, hdirectory, hopen, hloop, h₁.remove hfound₁ hempty]
    · refine ⟨fun hloc => hloc.elim ?_ id, .inr⟩
      rintro ⟨n, -, hprefix⟩
      exact List.IsPrefix.trans ⟨[n], by simp⟩ hprefix

/-- What is below the entry is removed with it, from the bottom up. -/
theorem Removable.removeAll {fuel depth : Nat} (h : Removable outside fs d dir name)
    (hdepth : ∀ loc ∈ fs.locations, loc.length ≤ depth)
    (hfuel : depth ≤ (dir ++ name :: ns).length + fuel) {entry : Entry}
    (hfound : fs.find (dir ++ name :: ns) = some entry) :
    ∃ count fs', removeAll (fuel + 1) fs (d.appendAll (name :: ns)) =
        some (.returned count none, fs') ∧
      Dropped fs (dir ++ name :: ns <+: ·) count fs' := by
  induction fuel generalizing fs ns entry with
  | zero =>
    refine h.step (fun fs n entry _ hdepth hfound => ?_) hdepth hfound
    have hlen := hdepth _ (mem_locations_of_find (by simp) hfound)
    simp only [List.length_append, List.length_cons, List.length_nil] at hlen hfuel
    omega
  | succ fuel ih =>
    refine h.step (fun fs n entry h hdepth hfound => ?_) hdepth hfound
    rw [← Path.appendAll_concat, List.cons_append]
    refine ih h hdepth ?_ hfound
    simp only [List.length_append, List.length_cons, List.length_nil] at hfuel ⊢
    omega

/-- A directory `/t` with a file, and a directory with a link to `/t/b/a`, which
is not there. -/
def cluttered : FileSystem :=
  FileSystem.ofEntries
    [([[116]], .directory {}), ([[116], [97]], .file), ([[116], [98]], .directory {}),
      ([[116], [98], [108]], .symlink [97])] {} 8 (by decide)

theorem removable_cluttered : Removable emptyTree cluttered ⟨[47]⟩ [] [116] where
  nonempty := by decide
  nul := by decide
  agree loc entry hentry := by
    by_cases hnil : loc = []
    · subst hnil
      exact hentry
    · cases (find_eq_some hnil).mp hentry
  absent := rfl
  found := .done 8 []
  directory := ⟨{}, rfl, rfl, rfl⟩
  usable ns perms hdir := by
    have hmem := (find_eq_some (by simp)).mp hdir
    simp only [cluttered, FileSystem.ofEntries, List.mem_cons, Prod.mk.injEq, List.not_mem_nil,
      or_false, Entry.directory.injEq, reduceCtorEq, and_false, false_or] at hmem
    rcases hmem with ⟨-, rfl⟩ | ⟨-, rfl⟩ <;> rfl
  links ns target hlink := by
    have hmem := (find_eq_some (by simp)).mp hlink
    obtain ⟨rfl, rfl⟩ : ns = [[98], [108]] ∧ target = [97] := by
      simpa [cluttered, FileSystem.ofEntries] using hmem
    decide

end

/-! ## §5 The guard -/

section

variable {fs fs' : FileSystem}

/-- Where `::mkdir` has made a directory. -/
theorem mkdir_cases {text : Text} {granted : Perms} (h : fs.mkdir granted text = .ok fs') :
    ∃ dir name perms, (names text).getLast? = some name ∧
      fs.walk true fs.symloopMax (start fs.currentPath text) (names text).dropLast = .ok dir ∧
      fs.find dir = some (.directory perms) ∧ perms.searchable = true ∧ perms.writable = true ∧
      fs.find (dir ++ [name]) = none ∧ Adds fs fs' (dir ++ [name]) granted := by
  rw [FileSystem.mkdir] at h
  split at h
  case h_1 => cases h
  rename_i name hlast
  split at h
  case h_1 => cases h
  rename_i dir hwalk
  split at h
  case h_1 => cases h
  case h_3 => cases h
  rename_i perms hdir
  split at h
  case isTrue => cases h
  rename_i hsearch
  split at h
  case isFalse => cases h
  rename_i hname
  split at h
  case isFalse => cases h
  rename_i hnew
  split at h
  case isTrue => cases h
  rename_i hwrite
  cases h
  exact ⟨dir, name, perms, hlast, hwalk, hdir, by simpa using hsearch, by simpa using hwrite, hnew,
    insert_adds hname ⟨perms, hdir⟩ hnew⟩

theorem plain_template : Path.Plain template := by
  simp [Path.Plain, template, Path.separator]

theorem Unique.ordinary (unique : Unique) : Path.Ordinary unique.name := by
  refine ⟨fun c hc => ?_, by simp [Unique.name, template]⟩
  rcases List.mem_append.mp hc with hc | hc
  · exact plain_template c hc
  · exact unique.plain c hc

/-- What a guard has made: a directory in the one that the environment names. -/
structure Prepared (env : Environment) (unique : Unique) (fs fs' : FileSystem) (path : Path)
    (dir : Location) : Prop where
  nonempty : env.value.1 ≠ []
  path : path = (Path.mk env.value).append ⟨unique.name⟩
  found : Resolves fs true fs.symloopMax (start fs.currentPath env.value) (names env.value) dir
  directory : ∃ perms, fs.find dir = some (.directory perms) ∧ perms.searchable = true ∧
    perms.writable = true
  absent : fs.find (dir ++ [unique.name]) = none
  adds : Adds fs fs' (dir ++ [unique.name]) {}

theorem prepared_of_constructed {env : Environment} {unique : Unique} {path : Path}
    (h : uniqueTempDirectoryPath env unique fs = .constructed path fs') :
    ∃ dir, Prepared env unique fs fs' path dir := by
  have hnul : (0 : UInt8) ∉ env.value.1 := env.value.2
  have hname := unique.ordinary
  rw [uniqueTempDirectoryPath, tempDirectoryPath] at h
  by_cases hnone : env.value.1 = [] ∨ (status fs ⟨env.value⟩).1 ≠ .directory
  · simp [hnone] at h
  have hne : env.value.1 ≠ [] := (not_or.mp hnone).1
  have hcStr : ((Path.mk env.value).append ⟨unique.name⟩).cStr =
      ((Path.mk env.value).append ⟨unique.name⟩).path :=
    cStr_eq (nul_notMem_append hnul hname)
  have hnames : names ((Path.mk env.value).append ⟨unique.name⟩).path =
      names env.value ++ [unique.name] := names_append hne hname
  simp only [if_neg hnone] at h
  split at h
  · cases h
  rw [hcStr] at h
  split at h
  · cases h
  rename_i fs₁ hmkdir
  cases h
  obtain ⟨dir, name, perms, hlast, hwalk, hdir, hsearch, hwrite, hnew, hadds⟩ := mkdir_cases hmkdir
  rw [hnames, List.getLast?_concat] at hlast
  cases hlast
  rw [hnames, List.dropLast_concat, start, append_head hne] at hwalk
  exact ⟨dir, hne, rfl, walk_eq_ok.mp hwalk, ⟨perms, hdir, hsearch, hwrite⟩, hnew, hadds⟩

/-- What a program may have done when the guard ends: nothing outside of the
directory, and in it what can be removed again. -/
structure Used (fs fs' : FileSystem) (path : Path) (top : Location) : Prop where
  outside : ∀ loc, ¬ top <+: loc → fs'.find loc = fs.find loc
  there : ∃ perms, fs'.find top = some (.directory perms)
  usable : ∀ loc perms, top <+: loc → fs'.find loc = some (.directory perms) →
    perms = ⟨true, true, true⟩
  links : ∀ ns target, fs'.find (top ++ ns) = some (.symlink target) →
    isDirectory fs' (path.appendAll ns) = some false
  symloopMax : fs'.symloopMax = fs.symloopMax
  current : Reached fs' fs'.currentPath

section

variable {env : Environment} {unique : Unique} {fs₁ fs₂ : FileSystem} {path : Path}
  {dir : Location}

theorem Prepared.path_ne_nil (h : Prepared env unique fs fs₁ path dir) : path.path ≠ [] := by
  intro hnil
  have hnames := names_append (p := ⟨env.value⟩) h.nonempty unique.ordinary
  rw [← h.path, hnil] at hnames
  simp [names, pieces] at hnames

theorem Prepared.value_head (h : Prepared env unique fs fs₁ path dir)
    (habsolute : path.path.head? = some Path.separator) :
    env.value.1.head? = some Path.separator := by
  rwa [h.path, append_head (p := ⟨env.value⟩) h.nonempty] at habsolute

theorem appendAll_rooted {p : Path} (h : p.path.head? = some Path.separator) (ns : List Name) :
    (p.appendAll ns).path.head? = some Path.separator := by
  induction ns generalizing p with
  | nil => exact h
  | cons n ns ih => exact ih (head_append h)

/-- Outside of the directory there is what there was before. -/
theorem Used.find (hused : Used fs₁ fs₂ path (dir ++ [unique.name]))
    (h : Prepared env unique fs fs₁ path dir) {loc : Location}
    (hloc : ¬ dir ++ [unique.name] <+: loc) : fs₂.find loc = fs.find loc := by
  have hne : loc ≠ dir ++ [unique.name] := fun heq => hloc (heq ▸ List.prefix_refl loc)
  rw [hused.outside loc hloc, h.adds.find, if_neg hne]

/-- From whatever directory the process is in, it can be removed. -/
theorem Used.removable (hused : Used fs₁ fs₂ path (dir ++ [unique.name]))
    (h : Prepared env unique fs fs₁ path dir)
    (habsolute : path.path.head? = some Path.separator) (cwd : Location) :
    Removable fs (fs₂.within cwd) ⟨env.value⟩ dir unique.name where
  nonempty := h.nonempty
  nul := env.value.2
  agree loc entry hentry := by
    have hloc : ¬ dir ++ [unique.name] <+: loc := fun hprefix => by
      rw [find_below_absent (by simp) h.absent hprefix] at hentry
      cases hentry
    exact (hused.find h hloc).trans hentry
  absent := h.absent
  found := by
    have hmax : fs₂.symloopMax = fs.symloopMax :=
      hused.symloopMax.trans h.adds.remains.symloopMax.symm
    have hfound := h.found
    rw [start, if_pos (h.value_head habsolute)] at hfound ⊢
    exact hmax ▸ hfound
  directory := h.directory
  usable ns perms hdir := hused.usable (dir ++ unique.name :: ns) perms ⟨ns, by simp⟩ hdir
  links ns target hlink := by
    have hpath : (Path.mk env.value).appendAll (unique.name :: ns) = path.appendAll ns := by
      rw [h.path]
      rfl
    have hfound : fs₂.find (dir ++ [unique.name] ++ ns) = some (.symlink target) := by
      rw [List.append_assoc]
      exact hlink
    have hsame : ∀ loc, (fs₂.within cwd).find loc = none ∨
        (fs₂.within cwd).find loc = fs₂.find loc := fun loc => .inr rfl
    rw [hpath]
    refine isDirectory_of_fewer hsame rfl ?_ (hused.links ns target hfound)
    rw [start_rooted (appendAll_rooted habsolute ns), start_rooted (appendAll_rooted habsolute ns)]

/-- The guard asks whether the process is in the directory. -/
theorem Used.equivalent (hused : Used fs₁ fs₂ path (dir ++ [unique.name]))
    (h : Prepared env unique fs fs₁ path dir)
    (habsolute : path.path.head? = some Path.separator) :
    equivalent fs₂ (currentPath fs₂) path =
      (decide (fs₂.currentPath = dir ++ [unique.name]), none) := by
  obtain ⟨perms, hthere⟩ := hused.there
  have hremovable := hused.removable h habsolute fs₂.currentPath
  have hlookup : fs₂.lookup true path.cStr = .ok (dir ++ [unique.name]) := by
    rw [h.path]
    exact hremovable.lookup hthere (.inr (by simp))
  obtain ⟨entry, hentry, -⟩ := hused.current.found
  have hcurrent : fs₂.lookup true (currentPath fs₂).cStr = .ok fs₂.currentPath := by
    rw [currentPath, cStr_pathname (valid_of_found hentry)]
    exact hused.current.lookup true
  rw [Filesystem.equivalent, hcurrent, hlookup]

/-- From the directory the guard goes to the one above. -/
theorem Used.chdir (hused : Used fs₁ fs₂ path (dir ++ [unique.name]))
    (h : Prepared env unique fs fs₁ path dir)
    (hcwd : fs₂.currentPath = dir ++ [unique.name]) :
    fs₂.chdir dotDotName = .ok (fs₂.within dir) := by
  obtain ⟨perms, hthere⟩ := hused.there
  obtain rfl := hused.usable _ perms (List.prefix_refl _) hthere
  obtain ⟨perms, hdir, hsearch, -⟩ := h.directory
  have hdir₂ : fs₂.find dir = some (.directory perms) := by
    rw [hused.find h (not_prefix_of_lt (by simp)), hdir]
  have hlookup : fs₂.lookup true dotDotName = .ok dir := by
    have hcomponents : components dotDotName = [dotDotName] := by decide
    rw [FileSystem.lookup, if_neg dotDotName_ne_nil, hcomponents, start, if_neg (by decide), hcwd,
      walk_cons, hthere]
    simp [dotDotName_ne_nil, dotDotName_ne_dotName]
  simp [FileSystem.chdir, hlookup, hdir₂, hsearch]

/-- What the guard has made is found by its path. -/
theorem Prepared.lookup (h : Prepared env unique fs fs₁ path dir) :
    fs₁.lookup true path.cStr = .ok (dir ++ [unique.name]) := by
  have hmax : fs.symloopMax = fs₁.symloopMax := h.adds.remains.symloopMax
  have hcurrent : fs.currentPath = fs₁.currentPath := h.adds.remains.currentPath
  -- there is nothing in the new directory
  have hnew : ∀ ns entry, fs₁.find (dir ++ unique.name :: ns) = some entry →
      entry = .directory ⟨true, true, true⟩ := by
    intro ns entry hfound
    rw [h.adds.find] at hfound
    split at hfound
    · exact (Option.some.inj hfound).symm
    · rw [find_below_absent (by simp) h.absent ⟨ns, by simp⟩] at hfound
      cases hfound
  have hremovable : Removable fs fs₁ ⟨env.value⟩ dir unique.name :=
    { nonempty := h.nonempty
      nul := env.value.2
      agree := fun loc entry hentry => h.adds.remains.find_eq_some hentry
      absent := h.absent
      found := by
        rw [← hmax, ← hcurrent]
        exact h.found
      directory := h.directory
      usable := fun ns perms hdir => Entry.directory.inj (hnew ns _ hdir)
      links := fun ns target hlink => by cases hnew ns _ hlink }
  have hfound : fs₁.find (dir ++ [unique.name]) = some (.directory ⟨true, true, true⟩) := by
    rw [h.adds.find, if_pos rfl]
  rw [h.path]
  exact hremovable.lookup hfound (.inr (by simp))

/-- A directory `/tmp`. -/
def beforeGuard : FileSystem :=
  FileSystem.ofEntries [([[116, 109, 112]], .directory {})] {} 8 (by decide)

theorem plain_sixLetters : Path.Plain [97, 98, 99, 100, 101, 102] := by
  simp [Path.Plain, Path.separator]

/-- What is put in the place of the six letters. -/
def sixLetters : Unique := ⟨[97, 98, 99, 100, 101, 102], plain_sixLetters⟩

/-- The same with the directory of the guard. -/
def withGuard : FileSystem :=
  FileSystem.ofEntries
    [([[116, 109, 112]], .directory {}), ([[116, 109, 112], sixLetters.name], .directory {})] {} 8
    (by decide)

/-- And with a directory in it, and a link in that one to a file that is not there. -/
def usedGuard : FileSystem :=
  FileSystem.ofEntries
    [([[116, 109, 112]], .directory {}), ([[116, 109, 112], sixLetters.name], .directory {}),
      ([[116, 109, 112], sixLetters.name, [97]], .directory {}),
      ([[116, 109, 112], sixLetters.name, [97], [98]], .symlink [99])] {} 8 (by decide)

theorem used_usedGuard :
    Used withGuard usedGuard ⟨[47, 116, 109, 112, 47] ++ sixLetters.name⟩
      [[116, 109, 112], sixLetters.name] where
  outside loc hloc := by
    have hdirectory : loc ≠ [[116, 109, 112], sixLetters.name, [97]] := by
      rintro rfl
      exact hloc (by decide)
    have hlink : loc ≠ [[116, 109, 112], sixLetters.name, [97], [98]] := by
      rintro rfl
      exact hloc (by decide)
    simp [FileSystem.find, usedGuard, withGuard, FileSystem.ofEntries, List.find?_cons,
      hdirectory.symm, hlink.symm]
  there := ⟨{}, rfl⟩
  usable loc perms hloc hdir := by
    have hne : loc ≠ [] := fun hnil => by simp [hnil] at hloc
    have hmem := (find_eq_some hne).mp hdir
    simp only [usedGuard, FileSystem.ofEntries, List.mem_cons, Prod.mk.injEq, List.not_mem_nil,
      or_false, Entry.directory.injEq, reduceCtorEq, and_false] at hmem
    rcases hmem with ⟨-, rfl⟩ | ⟨-, rfl⟩ | ⟨-, rfl⟩ <;> rfl
  links ns target hlink := by
    have hmem := (find_eq_some (by simp)).mp hlink
    obtain ⟨rfl, rfl⟩ : ns = [[97], [98]] ∧ target = [99] := by
      simpa [usedGuard, FileSystem.ofEntries] using hmem
    decide
  symloopMax := rfl
  current := usedGuard.reached_root

end

end

end Acatl.Filesystem
