/-
Acatl.RemoveAll — `remove_all` of `filesystem.cpp` removes nothing outside its
tree, if no symbolic link in that tree leads to a directory with entries.

`remove_all` asks with `is_directory(p)`, which follows a link, whether to go
through the entries of `p`. With a link to a directory it goes through the
entries of that directory, wherever it is, and removes them.

The names in a directory are those at the time of `opendir`; what is removed
while the loop runs is below a name that `readdir` has already returned.
-/
import Mathlib.Data.List.Induction
import Acatl.PathResolution

namespace Acatl.Filesystem

open FileSystem

/-! ## §1 The source -/

/-- How a call ends: with its result and the error code, or with the exception
of `status(p)` or of `directory_iterator(p)`. -/
inductive Outcome where
  | returned (count : UInt64) (ec : ErrorCode)
  | threw
  deriving DecidableEq

/-- The loop of `remove_all` over the entries of a directory. -/
def removeEntries (removeAll : FileSystem → Path → Option (Outcome × FileSystem)) (p : Path) :
    FileSystem → UInt64 → ErrorCode → List Name → Option (Outcome × FileSystem)
  | fs, sum, ec, [] => some (.returned sum ec, fs)
  | fs, sum, _, name :: rest =>
    match removeAll fs (p.append ⟨name⟩) with
    | none => none
    | some (.threw, fs) => some (.threw, fs)
    | some (.returned _ (some errno), fs) => some (.returned (-1) (some errno), fs)
    | some (.returned count none, fs) =>
      removeEntries removeAll p fs (sum + count) none rest

/-- `remove_all(p, ec)`, with a bound for the depth of the recursion. -/
def removeAll : Nat → FileSystem → Path → Option (Outcome × FileSystem)
  | 0, _, _ => none
  | fuel + 1, fs, p =>
    let st := symlinkStatus fs p
    if st.1.exists then
      match isDirectory fs p with
      | none => some (.threw, fs)
      | some true =>
        match fs.opendir p.cStr with
        | .error _ => some (.threw, fs)
        | .ok names =>
          match removeEntries (removeAll fuel) p fs 0 st.2 names with
          | none => none
          | some (.threw, fs) => some (.threw, fs)
          | some (.returned sum _, fs) =>
            match remove fs p with
            | (false, ec, fs) => some (.returned (-1) ec, fs)
            | (true, ec, fs) => some (.returned (sum + 1) ec, fs)
      | some false =>
        match remove fs p with
        | (false, ec, fs) => some (.returned 0 ec, fs)
        | (true, ec, fs) => some (.returned 1 ec, fs)
    else some (.returned 0 st.2, fs)

/-! ## §2 What a call may do -/

/-- The locations of the entries that have been removed. -/
def removed (fs fs' : FileSystem) : List Location :=
  fs.locations.filter (· ∉ fs'.locations)

/-- No symbolic link at a location or below it leads to a directory that can be
read and has entries. -/
def NoLinkedEntries (fs : FileSystem) (top : Location) : Prop :=
  ∀ dir name target, top <+: dir ++ [name] → fs.find (dir ++ [name]) = some (.symlink target) →
    ∀ loc, fs.walk true fs.symloopMax dir [name] = .ok loc →
      ∀ names, fs.list loc = .ok names → names = []

/-- A call stays inside the tree of its path, and a result without error means
that all of the tree is gone. -/
structure Contained (fs : FileSystem) (p : Path) (outcome : Outcome) (fs' : FileSystem) : Prop where
  remains : Remains fs' fs
  below : ∀ loc ∈ removed fs fs', ∃ top, fs.lookup false p.cStr = .ok top ∧ top <+: loc
  gone : ∀ count, outcome = .returned count none → fs'.stat false p.cStr = .error .ENOENT
  counted : ∀ count, outcome = .returned count none →
    count = UInt64.ofNat (removed fs fs').length

/-- What a call on the entry at `top` does; it is what the induction is about. -/
structure Removal (fs : FileSystem) (p : Path) (top : Location) (outcome : Outcome)
    (fs' : FileSystem) : Prop where
  remains : Remains fs' fs
  below : ∀ loc ∈ fs.locations, loc ∉ fs'.locations → top <+: loc
  kept : ∀ count errno, outcome = .returned count (some errno) →
    top ∈ fs.locations → top ∈ fs'.locations
  gone : ∀ count, outcome = .returned count none →
    fs.lookup false p.cStr = .ok top ∧ top ≠ [] ∧ top ∉ fs'.locations
  counted : ∀ count, outcome = .returned count none →
    count = UInt64.ofNat (fs.entries.length - fs'.entries.length)

variable {fs fs' : FileSystem} {p : Path} {top : Location}

theorem Removal.none (outcome : Outcome) (h : ∀ count, outcome ≠ .returned count none) :
    Removal fs p top outcome fs where
  remains := Remains.refl fs
  below _ hmem hnot := absurd hmem hnot
  kept _ _ _ hmem := hmem
  gone count heq := absurd heq (h count)
  counted count heq := absurd heq (h count)

/-! ## §3 One entry -/

/-- A status that is not one of an entry comes with an error. -/
theorem error_of_not_exists (h : (symlinkStatus fs p).1.exists = false) :
    ∃ errno, (symlinkStatus fs p).2 = some errno := by
  rw [symlinkStatus] at h ⊢
  cases hstat : fs.stat false p.cStr with
  | error errno => exact ⟨errno, rfl⟩
  | ok entry =>
    rw [hstat] at h
    cases entry <;> cases h

theorem locations_erase {loc : Location} (h : fs.children loc = []) :
    (fs.erase loc h).locations = fs.locations.erase loc := by
  have hfilter : fs.locations.erase loc = fs.locations.filter (· ≠ loc) := by
    rw [List.Nodup.erase_eq_filter (show fs.locations.Nodup from fs.nodup)]
    refine List.filter_congr fun other _ => ?_
    by_cases hother : other = loc <;> simp [hother]
  rw [hfilter, locations, locations, List.filter_map]
  rfl

theorem remains_erase {loc : Location} (h : fs.children loc = []) :
    Remains (fs.erase loc h) fs :=
  ⟨List.filter_sublist, rfl, rfl, rfl⟩

theorem erase_length {loc : Location} (hmem : loc ∈ fs.locations) (h : fs.children loc = []) :
    (fs.erase loc h).entries.length + 1 = fs.entries.length := by
  have hlen := congrArg List.length (locations_erase h)
  rw [List.length_erase_of_mem hmem, locations, locations, List.length_map, List.length_map] at hlen
  have hpos : 0 < fs.entries.length := by
    have := List.length_pos_of_mem hmem
    rwa [locations, List.length_map] at this
  omega

/-- `::remove` removes the entry that the string names, and nothing else. -/
theorem remove_eq_ok {text : Text} (h : fs.remove text = .ok fs') :
    ∃ loc hempty, fs.lookup false text = .ok loc ∧ loc ≠ [] ∧ loc ∈ fs.locations ∧
      fs' = fs.erase loc hempty := by
  rw [FileSystem.remove] at h
  split at h
  · cases h
  rename_i name hlast
  split at h
  · cases h
  rename_i hdot
  split at h
  · cases h
  rename_i hdotDot
  split at h
  · cases h
  rename_i loc hwalk
  have hres := walk_eq_ok.mp hwalk
  split at h
  case h_2 => cases h
  rename_i entry perms hfind hdir
  split at h
  · cases h
  rename_i hslash
  split at h
  · cases h
  split at h
  case isFalse => cases h
  rename_i hempty
  cases h
  -- the last name is that of an entry
  have hne : text ≠ [] := by
    intro hnil
    subst hnil
    cases hlast
  have hloc : loc ≠ [] := by
    have hsplit : names text = (names text).dropLast ++ [name] :=
      (List.dropLast_append_getLast? _ hlast).symm
    have hmem : name ∈ names text := List.mem_of_getLast? hlast
    rw [hsplit] at hres
    obtain ⟨mid, -, n, -, hname⟩ := hres.splits (by simp)
    have hnil : name ≠ [] := of_decide_eq_true (List.mem_filter.mp hmem).2
    rw [hname.single ⟨hnil, hdot, hdotDot⟩]
    simp
  refine ⟨loc, hempty, ?_, hloc, mem_locations_of_find hloc hfind, rfl⟩
  rw [FileSystem.lookup, if_neg hne, components]
  split
  · rename_i htrailing
    cases entry with
    | directory perms => exact walk_eq_ok.mpr (hres.trailing hfind)
    | file => exact absurd ⟨htrailing, rfl⟩ hslash
    | symlink target => exact absurd ⟨htrailing, rfl⟩ hslash
  · rw [List.append_nil]
    exact hwalk

/-- `remove(p, ec)` fails and changes nothing, or it removes the entry at `p`. -/
theorem remove_cases (fs : FileSystem) (p : Path) :
    (∃ errno, remove fs p = (false, some errno, fs)) ∨
      ∃ loc hempty, fs.lookup false p.cStr = .ok loc ∧ loc ≠ [] ∧ loc ∈ fs.locations ∧
        remove fs p = (true, none, fs.erase loc hempty) := by
  by_cases hexists : (symlinkStatus fs p).1.exists = true
  · cases hremove : fs.remove p.cStr with
    | error errno => exact .inl ⟨errno, by simp [remove, hexists, hremove]⟩
    | ok fs' =>
      obtain ⟨loc, hempty, hloc, hne, hmem, rfl⟩ := remove_eq_ok hremove
      refine .inr ⟨loc, hempty, hloc, hne, hmem, ?_⟩
      obtain ⟨e, he, rfl⟩ := List.mem_map.mp hmem
      have hstat : fs.stat false p.cStr = .ok e.2 :=
        stat_eq_ok.mpr ⟨e.1, hloc, (find_eq_some hne).mpr he⟩
      have hec : (symlinkStatus fs p).2 = none := by
        rw [symlinkStatus, hstat]
        rfl
      simp [remove, hexists, hremove, hec]
  · obtain ⟨errno, herrno⟩ := error_of_not_exists (Bool.eq_false_iff.mpr hexists)
    exact .inl ⟨errno, by simp [remove, hexists, herrno]⟩

/-! ## §4 The entries of a directory -/

/-- What is in a directory at a place where no link leads to entries: it is
that of the place itself. -/
theorem opendir_eq_ok {ns : List Name} (hlinks : NoLinkedEntries fs top)
    (htop : ∀ loc, fs.lookup false p.cStr = .ok loc → loc = top)
    (h : fs.opendir p.cStr = .ok ns) :
    ns = [] ∨ fs.lookup true p.cStr = .ok top ∧ fs.lookup false p.cStr = .ok top ∧
      ns = fs.children top := by
  rw [opendir] at h
  cases hlookup : fs.lookup true p.cStr with
  | error errno => simp [hlookup] at h
  | ok loc =>
    rw [hlookup] at h
    obtain ⟨hne, hres⟩ := lookup_eq_ok hlookup
    obtain hsame | ⟨dir, name, target, n, hlink, hfind, hn, hrest⟩ := hres.unfollowed
    · have hfalse : fs.lookup false p.cStr = .ok loc := by
        rw [FileSystem.lookup, if_neg hne, walk_eq_ok.mpr hsame]
      obtain rfl := htop loc hfalse
      obtain ⟨perms, hdir, hreadable, hns⟩ := list_eq_ok.mp h
      exact .inr ⟨rfl, hfalse, hns⟩
    · have hfalse : fs.lookup false p.cStr = .ok (dir ++ [name]) := by
        rw [FileSystem.lookup, if_neg hne, walk_eq_ok.mpr hlink]
      obtain rfl := htop _ hfalse
      have hfull := walk_eq_ok.mpr (hrest.weaken hn)
      exact .inl (hlinks dir name target (List.prefix_refl _) hfind loc hfull ns h)

theorem NoLinkedEntries.remains {below : Location} (h : NoLinkedEntries fs top)
    (hfs : Remains fs' fs) (hbelow : top <+: below) : NoLinkedEntries fs' below := by
  intro dir name target hprefix hfind loc hwalk ns hlist
  have hwalk' := walk_eq_ok.mpr ((walk_eq_ok.mp hwalk).of_remains hfs)
  rw [hfs.symloopMax] at hwalk'
  obtain ⟨perms, hdir, hreadable, rfl⟩ := list_eq_ok.mp hlist
  have hlist' : fs.list loc = .ok (fs.children loc) :=
    list_eq_ok.mpr ⟨perms, hfs.find_eq_some hdir, hreadable, rfl⟩
  have hnil := h dir name target (hbelow.trans hprefix) (hfs.find_eq_some hfind) loc hwalk' _ hlist'
  exact List.eq_nil_of_sublist_nil (hnil ▸ hfs.children loc)

theorem FileSystem.Remains.length_le (h : Remains fs' fs) :
    fs'.entries.length ≤ fs.entries.length :=
  h.entries.length_le

/-- What the loop does with the entries of a directory. -/
structure Entries (fs : FileSystem) (dir : Location) (ns : List Name) (sum : UInt64)
    (ec : ErrorCode) (outcome : Outcome) (fs' : FileSystem) : Prop where
  remains : Remains fs' fs
  below : ∀ loc ∈ fs.locations, loc ∉ fs'.locations → ∃ name ∈ ns, dir ++ [name] <+: loc
  kept : ∀ count errno, outcome = .returned count (some errno) →
    ns = [] ∧ ec = some errno ∨
      ∃ name ∈ ns, dir ++ [name] ∈ fs.locations → dir ++ [name] ∈ fs'.locations
  counted : ∀ count, outcome = .returned count none →
    count = sum + UInt64.ofNat (fs.entries.length - fs'.entries.length)

/-- What the loop removes is below the directory. -/
theorem Entries.below_dir {dir : Location} {ns : List Name} {sum : UInt64} {ec : ErrorCode}
    {outcome : Outcome} (h : Entries fs dir ns sum ec outcome fs') :
    ∀ loc ∈ fs.locations, loc ∉ fs'.locations → dir <+: loc ∧ loc ≠ dir := by
  intro loc hmem hnot
  obtain ⟨name, -, hprefix⟩ := h.below loc hmem hnot
  refine ⟨(List.prefix_append _ _).trans hprefix, ?_⟩
  intro heq
  have hlen : (dir ++ [name]).length ≤ dir.length := heq ▸ hprefix.length_le
  rw [List.length_append] at hlen
  exact Nat.not_succ_le_self _ hlen

/-- Where the loop has left nothing in the directory, it has counted what it has
removed. -/
theorem Entries.sum_eq {call : FileSystem → Path → Option (Outcome × FileSystem)} {dir : Location}
    {ns : List Name} {sum : UInt64} {ec ec' : ErrorCode} (hns : ns = [] ∨ ns = fs.children dir)
    (h : Entries fs dir ns 0 ec (.returned sum ec') fs')
    (hloop : removeEntries call p fs 0 ec ns = some (.returned sum ec', fs'))
    (hempty : fs'.children dir = []) :
    sum = UInt64.ofNat (fs.entries.length - fs'.entries.length) := by
  cases ec' with
  | none => simpa using h.counted sum rfl
  | some errno =>
    obtain ⟨rfl, -⟩ | ⟨name, hmem, hkept⟩ := h.kept sum errno rfl
    · simp only [removeEntries, Option.some.injEq, Prod.mk.injEq, Outcome.returned.injEq] at hloop
      obtain ⟨⟨rfl, -⟩, rfl⟩ := hloop
      simp
    · -- an entry at which the loop has stopped is still in the directory
      obtain rfl | rfl := hns
      · cases hmem
      have hchild := fs'.mem_children.mpr (hkept (fs.mem_children.mp hmem))
      rw [hempty] at hchild
      cases hchild

/-- The loop keeps to what its calls do, if these are about one entry each. -/
theorem removeEntries_entries {call : FileSystem → Path → Option (Outcome × FileSystem)}
    {dir : Location} {base : FileSystem} {names : List Name} {outcome : Outcome}
    (hcall : ∀ fs name outcome fs', Remains fs base → name ∈ names →
      call fs (p.append ⟨name⟩) = some (outcome, fs') →
        Removal fs (p.append ⟨name⟩) (dir ++ [name]) outcome fs') :
    ∀ (ns : List Name) (fs : FileSystem) (sum : UInt64) (ec : ErrorCode), ns.Nodup →
      (∀ name ∈ ns, name ∈ names) → Remains fs base →
      removeEntries call p fs sum ec ns = some (outcome, fs') →
        Entries fs dir ns sum ec outcome fs'
  | [], fs, sum, ec, _, _, _, h => by
    rw [removeEntries] at h
    cases h
    exact ⟨Remains.refl _, fun loc hmem hnot => absurd hmem hnot,
      fun count errno heq => .inl ⟨rfl, by cases heq; rfl⟩, fun count heq => by cases heq; simp⟩
  | name :: rest, fs, sum, ec, hnodup, hns, hfs, h => by
    have hname := hns name (List.mem_cons_self ..)
    obtain ⟨hnotin, hnodup⟩ := List.nodup_cons.mp hnodup
    rw [removeEntries] at h
    split at h
    · cases h
    · rename_i fs1 hone
      have hremoval := hcall _ _ _ _ hfs hname hone
      cases h
      exact ⟨hremoval.remains, fun loc hmem hnot => ⟨name, by simp, hremoval.below loc hmem hnot⟩,
        by simp, by simp⟩
    · rename_i count errno fs1 hone
      have hremoval := hcall _ _ _ _ hfs hname hone
      cases h
      exact ⟨hremoval.remains, fun loc hmem hnot => ⟨name, by simp, hremoval.below loc hmem hnot⟩,
        fun _ _ _ => .inr ⟨name, by simp, hremoval.kept count errno rfl⟩, by simp⟩
    · rename_i count fs1 hone
      have hremoval := hcall _ _ _ _ hfs hname hone
      have hrest := removeEntries_entries hcall rest fs1 _ _ hnodup
        (fun other hother => hns other (List.mem_cons_of_mem _ hother))
        (hremoval.remains.trans hfs) h
      refine ⟨hrest.remains.trans hremoval.remains, ?_, ?_, ?_⟩
      · intro loc hmem hnot
        by_cases hmem1 : loc ∈ fs1.locations
        · obtain ⟨other, hother, hprefix⟩ := hrest.below loc hmem1 hnot
          exact ⟨other, List.mem_cons_of_mem _ hother, hprefix⟩
        · exact ⟨name, by simp, hremoval.below loc hmem hmem1⟩
      · intro total errno heq
        obtain ⟨-, hec⟩ | ⟨other, hother, hkept⟩ := hrest.kept total errno heq
        · cases hec
        · refine .inr ⟨other, List.mem_cons_of_mem _ hother, fun hmem => hkept ?_⟩
          -- the call on `name` has removed nothing at `other`
          by_contra hnot
          have hprefix := hremoval.below _ hmem hnot
          have heq : dir ++ [name] = dir ++ [other] :=
            hprefix.eq_of_length (by simp)
          have hnames : name = other := by simpa using heq
          exact hnotin (hnames ▸ hother)
      · intro total heq
        have hle := hrest.remains.length_le
        have hle' := hremoval.remains.length_le
        rw [hrest.counted total heq, hremoval.counted count rfl, UInt64.add_assoc,
          ← UInt64.ofNat_add]
        congr 2
        omega

/-! ## §5 The whole tree -/

/-- The removal of an entry after what is below it. -/
theorem removal_of_remove {fs1 : FileSystem} (hfs : Remains fs1 fs)
    (htop : ∀ loc, fs.lookup false p.cStr = .ok loc → loc = top)
    (hbelow : ∀ loc ∈ fs.locations, loc ∉ fs1.locations → top <+: loc ∧ loc ≠ top) :
    (∃ errno, remove fs1 p = (false, some errno, fs1) ∧
      ∀ count, Removal fs p top (.returned count (some errno)) fs1) ∨
    (∃ hempty, remove fs1 p = (true, none, fs1.erase top hempty) ∧
      ∀ count, count = UInt64.ofNat (fs.entries.length - fs1.entries.length) →
        Removal fs p top (.returned (count + 1) none) (fs1.erase top hempty)) := by
  obtain ⟨errno, hremove⟩ | ⟨loc, hempty, hloc, hne, hmem, hremove⟩ := remove_cases fs1 p
  · refine .inl ⟨errno, hremove, fun count => ?_⟩
    exact {
      remains := hfs
      below := fun loc hmem hnot => (hbelow loc hmem hnot).1
      kept := fun _ _ _ hmem => by
        by_contra hnot
        exact (hbelow top hmem hnot).2 rfl
      gone := by simp
      counted := by simp }
  · have hlookup := lookup_of_remains hfs hloc
    obtain rfl := htop loc hlookup
    refine .inr ⟨hempty, hremove, fun count hcount => ?_⟩
    have hmem_erase (other : Location) :
        other ∈ (fs1.erase loc hempty).locations ↔ other ≠ loc ∧ other ∈ fs1.locations := by
      rw [locations_erase, List.Nodup.mem_erase_iff (show fs1.locations.Nodup from fs1.nodup)]
    exact {
      remains := (remains_erase hempty).trans hfs
      below := fun other hother hnot => by
        by_cases heq : other = loc
        · subst heq
          exact List.prefix_refl _
        · have hnot1 : other ∉ fs1.locations :=
            fun hmem1 => hnot ((hmem_erase other).mpr ⟨heq, hmem1⟩)
          exact (hbelow other hother hnot1).1
      kept := by simp
      gone := fun _ _ => ⟨hlookup, hne, fun hself => ((hmem_erase loc).mp hself).1 rfl⟩
      counted := fun total htotal => by
        cases htotal
        have hlen := erase_length hmem hempty
        have hle := hfs.length_le
        rw [hcount, show (1 : UInt64) = UInt64.ofNat 1 from rfl, ← UInt64.ofNat_add]
        congr 1
        omega }

/-- With a NUL in the path, the path of an entry is the same to the system: as
long as the directory has entries, the recursion does not end. -/
theorem removeAll_of_nul {name : Name} {rest : List Name} (hexists : (symlinkStatus fs p).1.exists)
    (hdir : isDirectory fs p = some true) (hopen : fs.opendir p.cStr = .ok (name :: rest))
    (hnul : (0 : UInt8) ∈ p.path) (fuel : Nat) : removeAll fuel fs p = none := by
  induction fuel generalizing p with
  | zero => rfl
  | succ fuel ih =>
    obtain ⟨hstr, hnul'⟩ := cStr_append_of_nul hnul ⟨name⟩
    have hcall : removeAll fuel fs (p.append ⟨name⟩) = none := by
      refine ih ?_ ?_ (hstr ▸ hopen) hnul'
      · rwa [symlinkStatus, hstr]
      · rwa [isDirectory, status, hstr]
    rw [removeAll]
    simp [hexists, hdir, hopen, removeEntries, hcall]

/-- The entries of a directory are again at places where no link leads to
entries, also after others have been removed. -/
theorem entry_of_directory {fs1 : FileSystem} {name : Name} (hlinks : NoLinkedEntries fs top)
    (hlookup : fs.lookup true p.cStr = .ok top) (hnul : (0 : UInt8) ∉ p.path)
    (hfs : Remains fs1 fs) (hmem : name ∈ fs.children top) :
    NoLinkedEntries fs1 (top ++ [name]) ∧
      ∀ loc, fs1.lookup false (p.append ⟨name⟩).cStr = .ok loc → loc = top ++ [name] := by
  have hvalid := valid_of_mem_children hmem
  refine ⟨hlinks.remains hfs (List.prefix_append _ _), fun loc hloc => ?_⟩
  obtain ⟨n, -, hres⟩ := lookup_entry hnul hvalid hlookup (lookup_of_remains hfs hloc)
  exact hres.single hvalid.ordinary

/-- **A call removes nothing but the entry at its path and what is below it.** -/
theorem removeAll_removal {fuel : Nat} {outcome : Outcome} (hlinks : NoLinkedEntries fs top)
    (htop : ∀ loc, fs.lookup false p.cStr = .ok loc → loc = top)
    (h : removeAll fuel fs p = some (outcome, fs')) : Removal fs p top outcome fs' := by
  induction fuel generalizing fs p top outcome fs' with
  | zero => cases h
  | succ fuel ih =>
    have hall := h
    rw [removeAll] at h
    split at h
    case isFalse hexists =>
      obtain ⟨errno, herrno⟩ := error_of_not_exists (Bool.eq_false_iff.mpr hexists)
      cases h
      exact .none _ fun count heq => by simp [herrno] at heq
    rename_i hexists
    split at h
    · cases h
      exact .none _ (by simp)
    · rename_i hdir
      split at h
      · cases h
        exact .none _ (by simp)
      rename_i ns hopen
      have hreal := opendir_eq_ok hlinks htop hopen
      -- each call of the loop is about one entry of the directory at `top`
      have hcall : ∀ fs1 name outcome fs2, Remains fs1 fs → name ∈ ns →
          removeAll fuel fs1 (p.append ⟨name⟩) = some (outcome, fs2) →
            Removal fs1 (p.append ⟨name⟩) (top ++ [name]) outcome fs2 := by
        intro fs1 name outcome fs2 hfs hmem hone
        obtain rfl | ⟨hlookup, -, rfl⟩ := hreal
        · cases hmem
        have hnul : (0 : UInt8) ∉ p.path := by
          intro hnul
          obtain ⟨first, rest, hns⟩ := List.exists_cons_of_ne_nil (List.ne_nil_of_mem hmem)
          rw [removeAll_of_nul hexists hdir (hns ▸ hopen) hnul] at hall
          cases hall
        obtain ⟨hlinks', htop'⟩ := entry_of_directory hlinks hlookup hnul hfs hmem
        exact ih hlinks' htop' hone
      have hns : ns = [] ∨ ns = fs.children top := by
        obtain rfl | ⟨-, -, rfl⟩ := hreal
        · exact .inl rfl
        · exact .inr rfl
      have hnodup : ns.Nodup := by
        obtain rfl | rfl := hns
        · exact List.nodup_nil
        · exact children_nodup fs top
      split at h
      · cases h
      · rename_i fs1 hloop
        have hentries := removeEntries_entries hcall ns fs _ _ hnodup (fun _ => id) (.refl fs) hloop
        cases h
        exact ⟨hentries.remains, fun loc hmem hnot => (hentries.below_dir loc hmem hnot).1, by simp,
          by simp, by simp⟩
      · rename_i sum ec fs1 hloop
        have hentries := removeEntries_entries hcall ns fs _ _ hnodup (fun _ => id) (.refl fs) hloop
        obtain ⟨errno, hremove, hremoval⟩ | ⟨hempty, hremove, hremoval⟩ :=
          removal_of_remove hentries.remains htop hentries.below_dir
        · rw [hremove] at h
          cases h
          exact hremoval _
        · rw [hremove] at h
          cases h
          exact hremoval sum (hentries.sum_eq hns hloop hempty)
    · obtain ⟨errno, hremove, hremoval⟩ | ⟨hempty, hremove, hremoval⟩ :=
        removal_of_remove (.refl fs) htop fun loc hmem hnot => absurd hmem hnot
      · rw [hremove] at h
        cases h
        exact hremoval 0
      · rw [hremove] at h
        cases h
        exact hremoval 0 (by simp)

/-! ## §6 The recursion ends -/

theorem removeEntries_remains {call : FileSystem → Path → Option (Outcome × FileSystem)}
    (hcall : ∀ fs q outcome fs', call fs q = some (outcome, fs') → Remains fs' fs) :
    ∀ (ns : List Name) (fs fs' : FileSystem) (sum : UInt64) (ec : ErrorCode) (outcome : Outcome),
      removeEntries call p fs sum ec ns = some (outcome, fs') → Remains fs' fs
  | [], fs, fs', sum, ec, outcome, h => by
    cases h
    exact .refl fs
  | name :: rest, fs, fs', sum, ec, outcome, h => by
    rw [removeEntries] at h
    split at h
    · cases h
    · rename_i hone
      cases h
      exact hcall _ _ _ _ hone
    · rename_i hone
      cases h
      exact hcall _ _ _ _ hone
    · rename_i hone
      exact (removeEntries_remains hcall rest _ _ _ _ _ h).trans (hcall _ _ _ _ hone)

theorem remove_remains (fs : FileSystem) (p : Path) : Remains (remove fs p).2.2 fs := by
  obtain ⟨errno, hremove⟩ | ⟨loc, hempty, -, -, -, hremove⟩ := remove_cases fs p
  · rw [hremove]
    exact .refl fs
  · rw [hremove]
    exact remains_erase hempty

/-- A call only takes entries away, wherever they are. -/
theorem removeAll_remains {fuel : Nat} {outcome : Outcome}
    (h : removeAll fuel fs p = some (outcome, fs')) : Remains fs' fs := by
  induction fuel generalizing fs p outcome fs' with
  | zero => cases h
  | succ fuel ih =>
    rw [removeAll] at h
    split at h
    case isFalse =>
      cases h
      exact .refl fs
    split at h
    · cases h
      exact .refl fs
    · split at h
      · cases h
        exact .refl fs
      have hcall (fs : FileSystem) (q : Path) (outcome : Outcome) (fs' : FileSystem)
          (hone : removeAll fuel fs q = some (outcome, fs')) : Remains fs' fs := ih hone
      split at h
      · cases h
      · rename_i hrun
        cases h
        exact removeEntries_remains hcall _ _ _ _ _ _ hrun
      · rename_i sum ec fs1 hrun
        have hremove := remove_remains fs1 p
        split at h <;> rename_i heq <;> rw [heq] at hremove <;> cases h <;>
          exact hremove.trans (removeEntries_remains hcall _ _ _ _ _ _ hrun)
    · have hremove := remove_remains fs p
      split at h <;> rename_i heq <;> rw [heq] at hremove <;> cases h <;> exact hremove

theorem removeEntries_terminates {call : FileSystem → Path → Option (Outcome × FileSystem)}
    {base : FileSystem} {names : List Name}
    (hcall : ∀ fs name, Remains fs base → name ∈ names →
      ∃ outcome fs', call fs (p.append ⟨name⟩) = some (outcome, fs') ∧ Remains fs' fs) :
    ∀ (ns : List Name) (fs : FileSystem) (sum : UInt64) (ec : ErrorCode),
      (∀ name ∈ ns, name ∈ names) → Remains fs base →
        ∃ r, removeEntries call p fs sum ec ns = some r
  | [], fs, sum, ec, _, _ => ⟨_, rfl⟩
  | name :: rest, fs, sum, ec, hns, hfs => by
    obtain ⟨outcome, fs', hone, hfs'⟩ := hcall fs name hfs (hns name (List.mem_cons_self ..))
    rw [removeEntries, hone]
    cases outcome with
    | threw => exact ⟨_, rfl⟩
    | returned count ec =>
      cases ec with
      | some errno => exact ⟨_, rfl⟩
      | none =>
        exact removeEntries_terminates hcall rest fs' _ _
          (fun other hother => hns other (List.mem_cons_of_mem _ hother)) (hfs'.trans hfs)

theorem removeAll_returns {fuel : Nat}
    (hcall : ∀ ns, fs.opendir p.cStr = .ok ns → ∀ fs1 name, Remains fs1 fs → name ∈ ns →
      ∃ outcome fs', removeAll fuel fs1 (p.append ⟨name⟩) = some (outcome, fs') ∧
        Remains fs' fs1) :
    ∃ r, removeAll (fuel + 1) fs p = some r := by
  rw [removeAll]
  split
  · split
    · exact ⟨_, rfl⟩
    · split
      · exact ⟨_, rfl⟩
      · rename_i ns hopen
        obtain ⟨⟨outcome, fs'⟩, hloop⟩ := removeEntries_terminates (hcall ns hopen) ns fs 0
          (symlinkStatus fs p).2 (fun _ => id) (.refl fs)
        rw [hloop]
        cases outcome with
        | threw => exact ⟨_, rfl⟩
        | returned count ec =>
          obtain ⟨errno, hremove⟩ | ⟨loc, hempty, -, -, -, hremove⟩ := remove_cases fs' p <;>
            simp [hremove]
    · obtain ⟨errno, hremove⟩ | ⟨loc, hempty, -, -, -, hremove⟩ := remove_cases fs p <;>
        simp [hremove]
  · exact ⟨_, rfl⟩

/-- Where the path has no NUL, the recursion is no deeper than the tree. -/
theorem removeAll_terminates {fuel : Nat} (hlinks : NoLinkedEntries fs top)
    (htop : ∀ loc, fs.lookup false p.cStr = .ok loc → loc = top) (hnul : (0 : UInt8) ∉ p.path)
    (hdepth : ∀ loc ∈ fs.locations, loc.length ≤ top.length + fuel) :
    ∃ r, removeAll (fuel + 1) fs p = some r := by
  induction fuel generalizing fs p top with
  | zero =>
    refine removeAll_returns fun ns hopen fs1 name _ hmem => ?_
    obtain rfl | ⟨-, -, rfl⟩ := opendir_eq_ok hlinks htop hopen
    · cases hmem
    · have hlen := hdepth _ (fs.mem_children.mp hmem)
      rw [List.length_append] at hlen
      exact absurd hlen (Nat.not_succ_le_self _)
  | succ fuel ih =>
    refine removeAll_returns fun ns hopen fs1 name hfs hmem => ?_
    obtain rfl | ⟨hlookup, -, rfl⟩ := opendir_eq_ok hlinks htop hopen
    · cases hmem
    · have hvalid := valid_of_mem_children hmem
      obtain ⟨hlinks', htop'⟩ := entry_of_directory hlinks hlookup hnul hfs hmem
      obtain ⟨⟨outcome, fs'⟩, hone⟩ := ih hlinks' htop' (nul_notMem_append hnul hvalid.element) (by
        intro loc hloc
        have hlen := hdepth loc (hfs.locations.subset hloc)
        rw [List.length_append, List.length_singleton]
        omega)
      exact ⟨outcome, fs', hone, removeAll_remains hone⟩

/-! ## §7 What is removed -/

theorem removed_length (h : Remains fs' fs) :
    (removed fs fs').length = fs.entries.length - fs'.entries.length := by
  have hperm : (fs.locations.filter (· ∈ fs'.locations)).Perm fs'.locations := by
    refine (List.perm_ext_iff_of_nodup (List.Nodup.filter _ fs.nodup) fs'.nodup).mpr fun loc => ?_
    rw [List.mem_filter]
    exact ⟨fun hmem => of_decide_eq_true hmem.2,
      fun hmem => ⟨h.locations.subset hmem, decide_eq_true hmem⟩⟩
  have hsum := List.length_eq_length_filter_add (l := fs.locations) (· ∈ fs'.locations)
  have hremoved : removed fs fs' = fs.locations.filter fun loc => !decide (loc ∈ fs'.locations) :=
    List.filter_congr fun loc _ => by simp
  have hlen : fs.locations.length = fs.entries.length := List.length_map _
  have hlen' : fs'.locations.length = fs'.entries.length := List.length_map _
  rw [← hremoved, hperm.length_eq] at hsum
  omega

theorem Removal.contained {outcome : Outcome} (h : Removal fs p top outcome fs')
    (htop : ∀ loc ∈ fs.locations, top <+: loc → fs.lookup false p.cStr = .ok top) :
    Contained fs p outcome fs' where
  remains := h.remains
  below loc hloc := by
    obtain ⟨hmem, hnot⟩ := List.mem_filter.mp hloc
    have hprefix := h.below loc hmem (of_decide_eq_true hnot)
    exact ⟨top, htop loc hmem hprefix, hprefix⟩
  gone count heq := by
    obtain ⟨hlookup, hne, hnot⟩ := h.gone count heq
    obtain hsame | herror := lookup_remains h.remains hlookup
    · simp [stat, hsame, (find_eq_none hne).mpr hnot]
    · simp [stat, herror]
  counted count heq := by
    rw [h.counted count heq, removed_length h.remains]

/-- A path that leads nowhere is like one to a place deeper than the tree. -/
theorem exists_top (hlinks : ∀ top, fs.lookup false p.cStr = .ok top → NoLinkedEntries fs top) :
    ∃ top, NoLinkedEntries fs top ∧ (∀ loc, fs.lookup false p.cStr = .ok loc → loc = top) ∧
      ∀ loc ∈ fs.locations, top <+: loc → fs.lookup false p.cStr = .ok top := by
  cases hlookup : fs.lookup false p.cStr with
  | ok top =>
    refine ⟨top, hlinks top hlookup, fun loc hloc => ?_, fun _ _ _ => rfl⟩
    cases hloc
    rfl
  | error errno =>
    obtain ⟨depth, hdepth⟩ := exists_depth fs
    have hdeep : ∀ loc ∈ fs.locations, ¬ List.replicate (depth + 1) [] <+: loc := by
      intro loc hmem hprefix
      have hlen := hprefix.length_le
      rw [List.length_replicate] at hlen
      exact absurd (hdepth loc hmem) (Nat.not_le_of_lt hlen)
    refine ⟨List.replicate (depth + 1) [], ?_, fun loc hloc => (by cases hloc),
      fun loc hmem hprefix => absurd hprefix (hdeep loc hmem)⟩
    intro dir name target hprefix hfind
    exact absurd hprefix (hdeep _ (mem_locations_of_find (by simp) hfind))

/-- A directory `/d` with a file, and with a link `l` to the empty directory `/o`. -/
def linkedEmpty : FileSystem :=
  .ofEntries [([[100]], .directory {}), ([[100], [108]], .symlink [47, 111]),
    ([[100], [102]], .file), ([[111]], .directory {})] {} 8 (by decide)

/-- A directory `/d` with a link `l` to the directory `/o`, where there is a file `f`. -/
def linkedOut : FileSystem :=
  .ofEntries [([[100]], .directory {}), ([[100], [108]], .symlink [47, 111]),
    ([[111]], .directory {}), ([[111], [102]], .file)] {} 8 (by decide)

/-- What an entry is below is a directory. -/
theorem directory_of_prefix {above loc : Location} (hmem : loc ∈ fs.locations)
    (habove : above <+: loc) (hne : above ≠ loc) :
    ∃ perms, fs.find above = some (.directory perms) := by
  obtain ⟨rest, rfl⟩ := habove
  induction rest using List.reverseRecOn with
  | nil => simp at hne
  | append_singleton rest name ih =>
    rw [← List.append_assoc] at hmem
    by_cases hnil : above ++ rest = []
    · rw [(List.append_eq_nil_iff.mp hnil).1]
      exact ⟨fs.root, rfl⟩
    obtain ⟨perms, hdir⟩ := fs.parents _ name hmem hnil
    have hfind := (find_eq_some hnil).mpr hdir
    by_cases hrest : rest = []
    · subst hrest
      rw [List.append_nil] at hfind
      exact ⟨perms, hfind⟩
    · exact ih (mem_locations_of_find hnil hfind) (by simpa using hrest)

/-- After the file behind the link has been removed, entries only go away. -/
theorem removeAll_link {target : Text} {name : Name} {rest : List Name}
    (hlink : fs.stat false p.cStr = .ok (.symlink target))
    (hopen : fs.opendir p.cStr = .ok (name :: rest))
    (hfile : (status fs (p.append ⟨name⟩)).1 = .regular)
    (hsame : (symlinkStatus fs (p.append ⟨name⟩)).1 = .regular) {fs1 : FileSystem}
    (hremove : remove fs (p.append ⟨name⟩) = (true, none, fs1)) {fuel : Nat} {outcome : Outcome}
    (h : removeAll fuel fs p = some (outcome, fs')) : Remains fs' fs1 := by
  have hexists : (symlinkStatus fs p).1.exists = true := by
    rw [symlinkStatus, hlink]
    rfl
  have hdir : isDirectory fs p = some true := by
    have hlist := hopen
    rw [opendir] at hlist
    split at hlist
    · cases hlist
    · rename_i dir hlookup
      obtain ⟨perms, hfind, -⟩ := list_eq_ok.mp hlist
      have hstat : fs.stat true p.cStr = .ok (.directory perms) :=
        stat_eq_ok.mpr ⟨dir, hlookup, hfind⟩
      rw [isDirectory, status, hstat]
      rfl
  have hone (fuel : Nat) :
      removeAll (fuel + 1) fs (p.append ⟨name⟩) = some (.returned 1 none, fs1) := by
    have hnotDir : isDirectory fs (p.append ⟨name⟩) = some false := by
      simp [isDirectory, hfile]
    rw [removeAll]
    simp [hsame, FileType.exists, hnotDir, hremove]
  cases fuel with
  | zero => cases h
  | succ fuel =>
    cases fuel with
    | zero =>
      rw [removeAll] at h
      simp [hexists, hdir, hopen, removeEntries, removeAll] at h
    | succ fuel =>
      rw [removeAll] at h
      simp only [hexists, hdir, hopen, removeEntries, hone, if_true] at h
      have hcall (fs : FileSystem) (q : Path) (outcome : Outcome) (fs' : FileSystem)
          (hone : removeAll (fuel + 1) fs q = some (outcome, fs')) : Remains fs' fs :=
        removeAll_remains hone
      split at h
      · cases h
      · rename_i hrun
        cases h
        exact removeEntries_remains hcall _ _ _ _ _ _ hrun
      · rename_i sum ec fs2 hrun
        have hremains := remove_remains fs2 p
        split at h <;> rename_i heq <;> rw [heq] at hremains <;> cases h <;>
          exact hremains.trans (removeEntries_remains hcall _ _ _ _ _ _ hrun)

/-- **A link is followed**: where the path is a link to a directory of which the
first entry is a file that can be removed, the file is removed. -/
theorem not_contained_of_link {target : Text} {name : Name} {rest : List Name}
    (hlink : fs.stat false p.cStr = .ok (.symlink target))
    (hopen : fs.opendir p.cStr = .ok (name :: rest))
    (hfile : (status fs (p.append ⟨name⟩)).1 = .regular)
    (hsame : (symlinkStatus fs (p.append ⟨name⟩)).1 = .regular)
    (hremove : (remove fs (p.append ⟨name⟩)).1 = true) {fuel : Nat} {outcome : Outcome}
    (h : removeAll fuel fs p = some (outcome, fs')) : ¬ Contained fs p outcome fs' := by
  intro hcontained
  obtain ⟨top, htop, hsymlink⟩ := stat_eq_ok.mp hlink
  obtain ⟨errno, hfailed⟩ | ⟨loc, hempty, hloc, -, hmem, hremoved⟩ :=
    remove_cases fs (p.append ⟨name⟩)
  · simp [hfailed] at hremove
  have hregular : fs.find loc = some .file := by
    rw [symlinkStatus, FileSystem.stat, hloc] at hsame
    cases hfind : fs.find loc with
    | none => simp [hfind, fileStatus, FileType.ofErrno] at hsame
    | some entry => cases entry <;> simp [hfind, fileStatus, FileType.ofEntry] at hsame ⊢
  -- what is below a link would make a directory of it
  have hnot : ¬ top <+: loc := by
    intro hprefix
    have hother : top ≠ loc := by
      intro heq
      rw [heq, hregular] at hsymlink
      cases hsymlink
    obtain ⟨perms, hdir⟩ := directory_of_prefix hmem hprefix hother
    rw [hsymlink] at hdir
    cases hdir
  have hgone : loc ∉ fs'.locations := by
    have hremains := removeAll_link hlink hopen hfile hsame hremoved h
    refine fun hmem' => ?_
    have hleft := hremains.locations.subset hmem'
    rw [locations_erase, List.Nodup.mem_erase_iff (show fs.locations.Nodup from fs.nodup)] at hleft
    exact hleft.1 rfl
  obtain ⟨top', htop', hprefix⟩ :=
    hcontained.below loc (List.mem_filter.mpr ⟨hmem, decide_eq_true hgone⟩)
  cases htop.symm.trans htop'
  exact hnot hprefix

end Acatl.Filesystem
