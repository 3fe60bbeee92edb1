/-
Acatl.PathResolution — the successful resolutions of a pathname as a relation,
and what becomes of them when entries are removed.

`Resolves` has one rule for each thing that resolution does with a name, and
`walk` succeeds just when there is a derivation (`walk_eq_ok`). The lemmas about
it are inductions over that derivation: a file system that `Remains` of another
one resolves no name differently, and the resolution of two lists of names one
behind the other is that of the second one from where the first one leads.
-/
import Mathlib.Data.List.Nodup
import Mathlib.Data.List.TakeWhile
import Acatl.FileSystem
import Acatl.PathIteration

namespace Acatl.Filesystem

open Acatl.Lib

namespace FileSystem

variable {fs fs' : FileSystem} {loc : Location}

/-! ## §1 Entries -/

theorem mem_locations_of_find {entry : Entry} (hne : loc ≠ []) (h : fs.find loc = some entry) :
    loc ∈ fs.locations := List.mem_map.mpr ⟨_, (find_eq_some hne).mp h, rfl⟩

/-- What is left of a file system when entries have been removed. -/
structure Remains (fs' fs : FileSystem) : Prop where
  entries : fs'.entries.Sublist fs.entries
  root : fs'.root = fs.root
  currentPath : fs'.currentPath = fs.currentPath
  symloopMax : fs'.symloopMax = fs.symloopMax

theorem Remains.refl (fs : FileSystem) : Remains fs fs :=
  ⟨List.Sublist.refl _, rfl, rfl, rfl⟩

theorem Remains.trans {fs'' : FileSystem} (h' : Remains fs'' fs') (h : Remains fs' fs) :
    Remains fs'' fs :=
  ⟨h'.entries.trans h.entries, h'.root.trans h.root, h'.currentPath.trans h.currentPath,
    h'.symloopMax.trans h.symloopMax⟩

theorem Remains.locations (h : Remains fs' fs) : fs'.locations.Sublist fs.locations :=
  h.entries.map _

theorem Remains.find (h : Remains fs' fs) (loc : Location) :
    fs'.find loc = none ∨ fs'.find loc = fs.find loc := by
  by_cases hne : loc = []
  · subst hne
    exact .inr (by simp [FileSystem.find, h.root])
  · cases hfind : fs'.find loc with
    | none => exact .inl rfl
    | some entry =>
      have hmem := h.entries.subset ((find_eq_some hne).mp hfind)
      exact .inr ((find_eq_some hne).mpr hmem).symm

/-- An entry is gone, or it is as it was. -/
theorem Remains.find_kept (h : Remains fs' fs) {entry : Entry} (hentry : fs.find loc = some entry) :
    fs'.find loc = none ∨ fs'.find loc = some entry :=
  hentry ▸ h.find loc

theorem Remains.find_eq_some (h : Remains fs' fs) {entry : Entry}
    (hfind : fs'.find loc = some entry) : fs.find loc = some entry := by
  obtain hnone | heq := h.find loc
  · rw [hfind] at hnone
    cases hnone
  · rw [← heq, hfind]

theorem Remains.children (h : Remains fs' fs) (loc : Location) :
    (fs'.children loc).Sublist (fs.children loc) := h.entries.filterMap _

theorem children_nodup (fs : FileSystem) (loc : Location) : (fs.children loc).Nodup := by
  have hmap : fs.children loc =
      fs.locations.filterMap fun l => if l.dropLast = loc then l.getLast? else none := by
    rw [children, locations, List.filterMap_map]
    rfl
  rw [hmap]
  refine List.Nodup.filterMap (fun l l' name hl hl' => ?_) fs.nodup
  split at hl
  · split at hl'
    · rename_i hdir hdir'
      rw [← List.dropLast_append_getLast? name hl, ← List.dropLast_append_getLast? name hl',
        hdir, hdir']
    · cases hl'
  · cases hl

theorem valid_of_mem_children {loc : Location} {name : Name} (h : name ∈ fs.children loc) :
    ValidName name := fs.valid loc name (fs.mem_children.mp h)

theorem list_eq_ok {loc : Location} {ns : List Name} :
    fs.list loc = .ok ns ↔
      ∃ perms, fs.find loc = some (.directory perms) ∧ perms.readable = true ∧
        ns = fs.children loc := by
  rw [list]
  split
  · simp_all
  · rename_i perms hdir
    constructor
    · intro h
      split at h
      · rename_i hreadable
        cases h
        exact ⟨perms, hdir, hreadable, rfl⟩
      · cases h
    · intro h
      obtain ⟨perms', hdir', hreadable, rfl⟩ := h
      rw [hdir] at hdir'
      cases hdir'
      rw [if_pos hreadable]
  · simp_all

theorem exists_depth (fs : FileSystem) : ∃ depth, ∀ loc ∈ fs.locations, loc.length ≤ depth :=
  ⟨fs.locations.flatten.length, fun _ h => (List.sublist_flatten_of_mem h).length_le⟩

/-! ## §2 Resolution as a relation -/

/-- Resolution of names from a location, with at most so many links on the
way, leads to a location. -/
inductive Resolves (fs : FileSystem) (follow : Bool) :
    Nat → Location → List Name → Location → Prop
  | done (budget : Nat) (cur : Location) : Resolves fs follow budget cur [] cur
  | slash {budget : Nat} {cur loc : Location} {rest : List Name} {perms : Perms}
      (hdir : fs.find cur = some (.directory perms))
      (h : Resolves fs follow budget cur rest loc) : Resolves fs follow budget cur ([] :: rest) loc
  | dot {budget : Nat} {cur loc : Location} {rest : List Name} {perms : Perms}
      (hdir : fs.find cur = some (.directory perms)) (hsearch : perms.searchable = true)
      (h : Resolves fs follow budget cur rest loc) :
      Resolves fs follow budget cur (dotName :: rest) loc
  | dotDot {budget : Nat} {cur loc : Location} {rest : List Name} {perms : Perms}
      (hdir : fs.find cur = some (.directory perms)) (hsearch : perms.searchable = true)
      (h : Resolves fs follow budget cur.dropLast rest loc) :
      Resolves fs follow budget cur (dotDotName :: rest) loc
  | entry {budget : Nat} {cur loc : Location} {name : Name} {rest : List Name} {perms : Perms}
      {found : Entry} (hdir : fs.find cur = some (.directory perms))
      (hsearch : perms.searchable = true) (hname : name ≠ [] ∧ name ≠ dotName ∧ name ≠ dotDotName)
      (hfound : fs.find (cur ++ [name]) = some found) (hlink : ∀ target, found ≠ .symlink target)
      (h : Resolves fs follow budget (cur ++ [name]) rest loc) :
      Resolves fs follow budget cur (name :: rest) loc
  | last (budget : Nat) {cur : Location} {name : Name} {perms : Perms} {target : Text}
      (hdir : fs.find cur = some (.directory perms))
      (hsearch : perms.searchable = true) (hname : name ≠ [] ∧ name ≠ dotName ∧ name ≠ dotDotName)
      (hfound : fs.find (cur ++ [name]) = some (.symlink target)) (hfollow : follow = false) :
      Resolves fs follow budget cur [name] (cur ++ [name])
  | link {budget : Nat} {cur loc : Location} {name : Name} {rest : List Name} {perms : Perms}
      {target : Text} (hdir : fs.find cur = some (.directory perms))
      (hsearch : perms.searchable = true) (hname : name ≠ [] ∧ name ≠ dotName ∧ name ≠ dotDotName)
      (hfound : fs.find (cur ++ [name]) = some (.symlink target))
      (hlast : ¬(rest = [] ∧ follow = false)) (htarget : target ≠ [])
      (h : Resolves fs follow budget (start cur target) (components target ++ rest) loc) :
      Resolves fs follow (budget + 1) cur (name :: rest) loc

section

variable {follow : Bool} {budget : Nat} {cur : Location} {ns rest : List Name}

theorem dotName_ne_nil : dotName ≠ [] := by decide
theorem dotDotName_ne_nil : dotDotName ≠ [] := by decide
theorem dotDotName_ne_dotName : dotDotName ≠ dotName := by decide

/-- How resolution goes on with a link. -/
def expand (fs : FileSystem) (follow : Bool) :
    Nat → Location → Text → List Name → Except Errno Location
  | 0, _, _, _ => .error .ELOOP
  | budget + 1, cur, target, rest =>
    if target = [] then .error .ENOENT
    else fs.walk follow budget (start cur target) (components target ++ rest)

theorem walk_eq (fs : FileSystem) (follow : Bool) (budget : Nat) :
    fs.walk follow budget = fs.walkNames follow (fs.expand follow budget) := by
  cases budget <;> rfl

@[simp] theorem walk_nil : fs.walk follow budget cur [] = .ok cur := by
  rw [walk_eq, walkNames]

theorem walk_cons (name : Name) :
    fs.walk follow budget cur (name :: rest) =
      match fs.find cur with
      | none => .error .ENOENT
      | some (.directory perms) =>
        if name = [] then fs.walk follow budget cur rest
        else if perms.searchable = false then .error .EACCES
        else if name = dotName then fs.walk follow budget cur rest
        else if name = dotDotName then fs.walk follow budget cur.dropLast rest
        else
          match fs.find (cur ++ [name]) with
          | none => .error .ENOENT
          | some (.symlink target) =>
            if rest = [] ∧ follow = false then .ok (cur ++ [name])
            else fs.expand follow budget cur target rest
          | some _ => fs.walk follow budget (cur ++ [name]) rest
      | some _ => .error .ENOTDIR := by
  rw [walk_eq]
  rfl

theorem walk_of_resolves (h : Resolves fs follow budget cur ns loc) :
    fs.walk follow budget cur ns = .ok loc := by
  induction h with
  | done budget cur => exact walk_nil
  | slash hdir h ih => simpa [walk_cons, hdir] using ih
  | dot hdir hsearch h ih => simpa [walk_cons, hdir, hsearch, dotName_ne_nil] using ih
  | dotDot hdir hsearch h ih =>
    simpa [walk_cons, hdir, hsearch, dotDotName_ne_nil, dotDotName_ne_dotName] using ih
  | @entry _ _ _ _ _ _ found hdir hsearch hname hfound hlink h ih =>
    cases found with
    | symlink target => exact absurd rfl (hlink target)
    | file => simpa [walk_cons, hdir, hsearch, hname, hfound] using ih
    | directory perms => simpa [walk_cons, hdir, hsearch, hname, hfound] using ih
  | last budget hdir hsearch hname hfound hfollow =>
    simp [walk_cons, hdir, hsearch, hname, hfound, hfollow]
  | link hdir hsearch hname hfound hlast htarget h ih =>
    simpa [walk_cons, hdir, hsearch, hname, hfound, hlast, expand, htarget] using ih

theorem resolves_of_walk_of_expand
    (hexpand : ∀ cur target rest, fs.expand follow budget cur target rest = .ok loc →
      ∃ n, budget = n + 1 ∧ target ≠ [] ∧
        Resolves fs follow n (start cur target) (components target ++ rest) loc)
    (h : fs.walk follow budget cur ns = .ok loc) : Resolves fs follow budget cur ns loc := by
  induction ns generalizing cur with
  | nil =>
    rw [walk_nil] at h
    cases h
    exact .done _ _
  | cons name rest ih =>
    rw [walk_cons] at h
    split at h
    · cases h
    · rename_i perms hdir
      by_cases hnil : name = []
      · subst hnil
        exact .slash hdir (ih (by simpa using h))
      rw [if_neg hnil] at h
      cases hsearch : perms.searchable with
      | false => simp [hsearch] at h
      | true =>
        rw [if_neg (by simp [hsearch])] at h
        by_cases hdot : name = dotName
        · subst hdot
          exact .dot hdir hsearch (ih (by simpa using h))
        rw [if_neg hdot] at h
        by_cases hdotDot : name = dotDotName
        · subst hdotDot
          exact .dotDot hdir hsearch (ih (by simpa using h))
        rw [if_neg hdotDot] at h
        have hname : name ≠ [] ∧ name ≠ dotName ∧ name ≠ dotDotName := ⟨hnil, hdot, hdotDot⟩
        split at h
        · cases h
        · rename_i target hfound
          by_cases hlast : rest = [] ∧ follow = false
          · rw [if_pos hlast] at h
            cases h
            obtain ⟨rfl, hfollow⟩ := hlast
            exact .last budget hdir hsearch hname hfound hfollow
          · rw [if_neg hlast] at h
            obtain ⟨n, rfl, htarget, hrest⟩ := hexpand _ _ _ h
            exact .link hdir hsearch hname hfound hlast htarget hrest
        · rename_i found hlink hfound
          exact .entry hdir hsearch hname hfound hlink (ih h)
    · cases h

theorem resolves_of_walk (h : fs.walk follow budget cur ns = .ok loc) :
    Resolves fs follow budget cur ns loc := by
  induction budget generalizing cur ns with
  | zero => exact resolves_of_walk_of_expand (fun _ _ _ h => by simp [expand] at h) h
  | succ budget ih =>
    refine resolves_of_walk_of_expand (fun dir target rest h => ?_) h
    by_cases htarget : target = []
    · simp [expand, htarget] at h
    · exact ⟨budget, rfl, htarget, ih (by simpa [expand, htarget] using h)⟩

/-- Resolution succeeds just when there is a derivation. -/
theorem walk_eq_ok :
    fs.walk follow budget cur ns = .ok loc ↔ Resolves fs follow budget cur ns loc :=
  ⟨resolves_of_walk, walk_of_resolves⟩

/-! ## §3 Links, names behind one another, and file systems that remain -/

/-- More links may be followed. -/
theorem Resolves.weaken {more : Nat} (h : Resolves fs follow budget cur ns loc)
    (hle : budget ≤ more) : Resolves fs follow more cur ns loc := by
  induction h generalizing more with
  | done => exact .done more _
  | slash hdir h ih => exact .slash hdir (ih hle)
  | dot hdir hsearch h ih => exact .dot hdir hsearch (ih hle)
  | dotDot hdir hsearch h ih => exact .dotDot hdir hsearch (ih hle)
  | entry hdir hsearch hname hfound hlink h ih =>
    exact .entry hdir hsearch hname hfound hlink (ih hle)
  | last _ hdir hsearch hname hfound hfollow => exact .last more hdir hsearch hname hfound hfollow
  | link hdir hsearch hname hfound hlast htarget h ih =>
    obtain ⟨n, rfl⟩ := Nat.exists_eq_add_of_lt (Nat.lt_of_succ_le hle)
    exact .link hdir hsearch hname hfound hlast htarget (ih (by omega))

/-- Names behind one another: the second ones are resolved from where the first
ones lead, with what is left of the budget. -/
def Splits (fs : FileSystem) (follow : Bool) (budget : Nat) (cur : Location)
    (front back : List Name) (loc : Location) : Prop :=
  ∃ mid, Resolves fs true budget cur front mid ∧
    ∃ n, n ≤ budget ∧ Resolves fs follow n mid back loc

theorem Resolves.splits_of {front back : List Name}
    (h : Resolves fs follow budget cur (front ++ back) loc)
    (hcons : front ≠ [] → Splits fs follow budget cur front back loc) :
    Splits fs follow budget cur front back loc := by
  by_cases hfront : front = []
  · subst hfront
    exact ⟨cur, .done budget cur, budget, Nat.le_refl _, h⟩
  · exact hcons hfront

theorem Resolves.splits {front back : List Name} (hback : back ≠ [])
    (h : Resolves fs follow budget cur (front ++ back) loc) :
    Splits fs follow budget cur front back loc := by
  refine h.splits_of fun hfront => ?_
  generalize hns : front ++ back = ns at h
  induction h generalizing front with
  | done budget cur => simp [hback] at hns
  | slash hdir h ih =>
    obtain ⟨name, front, rfl⟩ := List.exists_cons_of_ne_nil hfront
    obtain ⟨rfl, rfl⟩ := List.cons.inj hns
    obtain ⟨mid, hmid, hrest⟩ := h.splits_of fun hne => ih hne rfl
    exact ⟨mid, .slash hdir hmid, hrest⟩
  | dot hdir hsearch h ih =>
    obtain ⟨name, front, rfl⟩ := List.exists_cons_of_ne_nil hfront
    obtain ⟨rfl, rfl⟩ := List.cons.inj hns
    obtain ⟨mid, hmid, hrest⟩ := h.splits_of fun hne => ih hne rfl
    exact ⟨mid, .dot hdir hsearch hmid, hrest⟩
  | dotDot hdir hsearch h ih =>
    obtain ⟨name, front, rfl⟩ := List.exists_cons_of_ne_nil hfront
    obtain ⟨rfl, rfl⟩ := List.cons.inj hns
    obtain ⟨mid, hmid, hrest⟩ := h.splits_of fun hne => ih hne rfl
    exact ⟨mid, .dotDot hdir hsearch hmid, hrest⟩
  | entry hdir hsearch hname hfound hlink h ih =>
    obtain ⟨name, front, rfl⟩ := List.exists_cons_of_ne_nil hfront
    obtain ⟨rfl, rfl⟩ := List.cons.inj hns
    obtain ⟨mid, hmid, hrest⟩ := h.splits_of fun hne => ih hne rfl
    exact ⟨mid, .entry hdir hsearch hname hfound hlink hmid, hrest⟩
  | last budget hdir hsearch hname hfound hfollow =>
    obtain ⟨name, front, rfl⟩ := List.exists_cons_of_ne_nil hfront
    obtain ⟨-, hnil⟩ := List.cons.inj hns
    exact absurd (List.append_eq_nil_iff.mp hnil).2 hback
  | @link n cur loc name' rest perms target hdir hsearch hname hfound hlast htarget h ih =>
    obtain ⟨name, front, rfl⟩ := List.exists_cons_of_ne_nil hfront
    obtain ⟨rfl, rfl⟩ := List.cons.inj hns
    -- the names of the target come in front of those that are left of the first list
    rw [List.append_eq, ← List.append_assoc] at h
    obtain ⟨mid, hmid, m, hm, hrest⟩ :=
      h.splits_of fun hne => ih hne (List.append_assoc _ _ _)
    exact ⟨mid, .link hdir hsearch hname hfound (by simp) htarget hmid, m, by omega, hrest⟩

/-- Resolution where a link at the end is followed and where it is not: they
lead to the same place, or the second one to a link that leads there. -/
theorem Resolves.unfollowed (h : Resolves fs true budget cur ns loc) :
    Resolves fs false budget cur ns loc ∨
      ∃ dir name target n, Resolves fs false budget cur ns (dir ++ [name]) ∧
        fs.find (dir ++ [name]) = some (.symlink target) ∧
        n ≤ budget ∧ Resolves fs true n dir [name] loc := by
  induction h with
  | done budget cur => exact .inl (.done budget cur)
  | slash hdir h ih =>
    obtain hsame | ⟨dir, name, target, n, hres, hlink⟩ := ih
    · exact .inl (.slash hdir hsame)
    · exact .inr ⟨dir, name, target, n, .slash hdir hres, hlink⟩
  | dot hdir hsearch h ih =>
    obtain hsame | ⟨dir, name, target, n, hres, hlink⟩ := ih
    · exact .inl (.dot hdir hsearch hsame)
    · exact .inr ⟨dir, name, target, n, .dot hdir hsearch hres, hlink⟩
  | dotDot hdir hsearch h ih =>
    obtain hsame | ⟨dir, name, target, n, hres, hlink⟩ := ih
    · exact .inl (.dotDot hdir hsearch hsame)
    · exact .inr ⟨dir, name, target, n, .dotDot hdir hsearch hres, hlink⟩
  | entry hdir hsearch hname hfound hlink h ih =>
    obtain hsame | ⟨dir, name, target, n, hres, hlink'⟩ := ih
    · exact .inl (.entry hdir hsearch hname hfound hlink hsame)
    · exact .inr ⟨dir, name, target, n, .entry hdir hsearch hname hfound hlink hres, hlink'⟩
  | last budget hdir hsearch hname hfound hfollow => cases hfollow
  | @link n cur loc name rest perms target hdir hsearch hname hfound hlast htarget h ih =>
    by_cases hrest : rest = []
    · subst hrest
      exact .inr ⟨cur, name, target, n + 1, .last _ hdir hsearch hname hfound rfl, hfound,
        Nat.le_refl _, .link hdir hsearch hname hfound hlast htarget h⟩
    · have hlast' : ¬(rest = [] ∧ false = false) := fun h => hrest h.1
      obtain hsame | ⟨dir, name', target', m, hres, hfound', hm, hlink⟩ := ih
      · exact .inl (.link hdir hsearch hname hfound hlast' htarget hsame)
      · exact .inr ⟨dir, name', target', m, .link hdir hsearch hname hfound hlast' htarget hres,
          hfound', by omega, hlink⟩

/-- What remains of a file system resolves no names differently. -/
theorem Resolves.of_remains (hfs : Remains fs' fs) (h : Resolves fs' follow budget cur ns loc) :
    Resolves fs follow budget cur ns loc := by
  induction h with
  | done budget cur => exact .done budget cur
  | slash hdir h ih => exact .slash (hfs.find_eq_some hdir) ih
  | dot hdir hsearch h ih => exact .dot (hfs.find_eq_some hdir) hsearch ih
  | dotDot hdir hsearch h ih => exact .dotDot (hfs.find_eq_some hdir) hsearch ih
  | entry hdir hsearch hname hfound hlink h ih =>
    exact .entry (hfs.find_eq_some hdir) hsearch hname (hfs.find_eq_some hfound) hlink ih
  | last budget hdir hsearch hname hfound hfollow =>
    exact .last budget (hfs.find_eq_some hdir) hsearch hname (hfs.find_eq_some hfound) hfollow
  | link hdir hsearch hname hfound hlast htarget h ih =>
    exact .link (hfs.find_eq_some hdir) hsearch hname (hfs.find_eq_some hfound) hlast htarget ih

theorem walk_missing {name : Name} (h : fs.find cur = none) :
    fs.walk follow budget cur (name :: rest) = .error .ENOENT := by
  rw [walk_cons, h]

theorem walk_missing_name {name : Name} {perms : Perms}
    (hdir : fs.find cur = some (.directory perms)) (hsearch : perms.searchable = true)
    (hname : name ≠ [] ∧ name ≠ dotName ∧ name ≠ dotDotName) (h : fs.find (cur ++ [name]) = none) :
    fs.walk follow budget cur (name :: rest) = .error .ENOENT := by
  simp [walk_cons, hdir, hsearch, hname, h]

/-- Where entries have been removed, names are resolved as before or not found. -/
theorem Resolves.remains (hfs : Remains fs' fs) (h : Resolves fs follow budget cur ns loc) :
    Resolves fs' follow budget cur ns loc ∨
      fs'.walk follow budget cur ns = .error .ENOENT := by
  induction h with
  | done budget cur => exact .inl (.done budget cur)
  | @slash budget cur loc rest perms hdir h ih =>
    obtain hnone | heq := hfs.find_kept hdir
    · exact .inr (walk_missing hnone)
    obtain hres | herr := ih
    · exact .inl (.slash heq hres)
    · exact .inr (by simpa [walk_cons, heq] using herr)
  | @dot budget cur loc rest perms hdir hsearch h ih =>
    obtain hnone | heq := hfs.find_kept hdir
    · exact .inr (walk_missing hnone)
    obtain hres | herr := ih
    · exact .inl (.dot heq hsearch hres)
    · exact .inr (by simpa [walk_cons, heq, hsearch, dotName_ne_nil] using herr)
  | @dotDot budget cur loc rest perms hdir hsearch h ih =>
    obtain hnone | heq := hfs.find_kept hdir
    · exact .inr (walk_missing hnone)
    obtain hres | herr := ih
    · exact .inl (.dotDot heq hsearch hres)
    · refine .inr ?_
      simpa [walk_cons, heq, hsearch, dotDotName_ne_nil, dotDotName_ne_dotName] using herr
  | @entry budget cur loc name rest perms found hdir hsearch hname hfound hlink h ih =>
    obtain hnone | heq := hfs.find_kept hdir
    · exact .inr (walk_missing hnone)
    obtain hnone' | heq' := hfs.find_kept hfound
    · exact .inr (walk_missing_name heq hsearch hname hnone')
    obtain hres | herr := ih
    · exact .inl (.entry heq hsearch hname heq' hlink hres)
    · refine .inr ?_
      cases found with
      | symlink target => exact absurd rfl (hlink target)
      | file => simpa [walk_cons, heq, hsearch, hname, heq'] using herr
      | directory perms => simpa [walk_cons, heq, hsearch, hname, heq'] using herr
  | @last budget cur name perms target hdir hsearch hname hfound hfollow =>
    obtain hnone | heq := hfs.find_kept hdir
    · exact .inr (walk_missing hnone)
    obtain hnone' | heq' := hfs.find_kept hfound
    · exact .inr (walk_missing_name heq hsearch hname hnone')
    · exact .inl (.last budget heq hsearch hname heq' hfollow)
  | @link budget cur loc name rest perms target hdir hsearch hname hfound hlast htarget h ih =>
    obtain hnone | heq := hfs.find_kept hdir
    · exact .inr (walk_missing hnone)
    obtain hnone' | heq' := hfs.find_kept hfound
    · exact .inr (walk_missing_name heq hsearch hname hnone')
    obtain hres | herr := ih
    · exact .inl (.link heq hsearch hname heq' hlast htarget hres)
    · refine .inr ?_
      simpa [walk_cons, heq, hsearch, hname, heq', hlast, expand, htarget] using herr

/-! ## §4 The last name -/

/-- A name of an entry leads to that entry, if a link is not followed. -/
theorem Resolves.single {name : Name} (hname : name ≠ [] ∧ name ≠ dotName ∧ name ≠ dotDotName)
    (h : Resolves fs false budget cur [name] loc) : loc = cur ++ [name] := by
  obtain ⟨hnil, hdot, hdotDot⟩ := hname
  cases h with
  | slash => exact absurd rfl hnil
  | dot => exact absurd rfl hdot
  | dotDot => exact absurd rfl hdotDot
  | entry hdir hsearch hname hfound hlink h =>
    cases h
    rfl
  | last => rfl
  | link hdir hsearch hname hfound hlast => exact absurd ⟨rfl, rfl⟩ hlast

/-- Behind the names of a directory there may be a slash. -/
theorem Resolves.trailing {perms : Perms} (h : Resolves fs false budget cur ns loc)
    (hfind : fs.find loc = some (.directory perms)) :
    Resolves fs false budget cur (ns ++ [[]]) loc := by
  induction h with
  | done budget cur => exact .slash hfind (.done _ _)
  | slash hdir h ih => exact .slash hdir (ih hfind)
  | dot hdir hsearch h ih => exact .dot hdir hsearch (ih hfind)
  | dotDot hdir hsearch h ih => exact .dotDot hdir hsearch (ih hfind)
  | entry hdir hsearch hname hfound hlink h ih =>
    exact .entry hdir hsearch hname hfound hlink (ih hfind)
  | last budget hdir hsearch hname hfound hfollow => simp [hfound] at hfind
  | link hdir hsearch hname hfound hlast htarget h ih =>
    have hrest := ih hfind
    rw [List.append_assoc] at hrest
    exact .link hdir hsearch hname hfound (by simp) htarget hrest

theorem Resolves.trailing_inv (h : Resolves fs follow budget cur (ns ++ [[]]) loc) :
    Resolves fs true budget cur ns loc := by
  obtain ⟨mid, hmid, n, hn, hlast⟩ := h.splits (by simp)
  cases hlast with
  | slash hdir h =>
    cases h
    exact hmid
  | entry hdir hsearch hname => exact absurd rfl hname.1
  | last n hdir hsearch hname => exact absurd rfl hname.1
  | link hdir hsearch hname => exact absurd rfl hname.1

/-! ## §5 Strings -/

theorem lookup_eq_ok {text : Text} (h : fs.lookup follow text = .ok loc) :
    text ≠ [] ∧
      Resolves fs follow fs.symloopMax (start fs.currentPath text) (components text) loc := by
  rw [lookup] at h
  split at h
  · cases h
  · rename_i hne
    exact ⟨hne, walk_eq_ok.mp h⟩

theorem lookup_of_remains {text : Text} (hfs : Remains fs' fs)
    (h : fs'.lookup follow text = .ok loc) : fs.lookup follow text = .ok loc := by
  obtain ⟨hne, hres⟩ := lookup_eq_ok h
  have hwalk := walk_eq_ok.mpr (hres.of_remains hfs)
  rw [hfs.symloopMax, hfs.currentPath] at hwalk
  rwa [lookup, if_neg hne]

theorem lookup_remains {text : Text} (hfs : Remains fs' fs)
    (h : fs.lookup follow text = .ok loc) :
    fs'.lookup follow text = .ok loc ∨ fs'.lookup follow text = .error .ENOENT := by
  obtain ⟨hne, hres⟩ := lookup_eq_ok h
  rw [lookup, if_neg hne, hfs.symloopMax, hfs.currentPath, walk_eq_ok]
  exact hres.remains hfs

end

end FileSystem

theorem ValidName.ordinary {name : Name} (h : ValidName name) :
    name ≠ [] ∧ name ≠ dotName ∧ name ≠ dotDotName := ⟨h.1, h.2.2.2⟩

theorem ValidName.element {name : Name} (h : ValidName name) : Path.Ordinary name :=
  ⟨fun _ hc => ⟨fun h0 => h.2.2.1 (h0 ▸ hc), fun hsep => h.2.1 (hsep ▸ hc)⟩, h.1⟩

theorem names_append_sep (as bs : Text) :
    names (as ++ Path.separator :: bs) = names as ++ names bs := runs_append_sep _ as bs

theorem names_name {name : Name} (hname : Path.Ordinary name) : names name = [name] :=
  runs_single hname.1.notMem hname.2

/-- The names in a path with one more behind it. -/
theorem names_append {p : Path} {name : Name} (hp : p.path ≠ []) (hname : Path.Ordinary name) :
    names (p.append ⟨name⟩).path = names p.path ++ [name] := by
  have hhead : name.head? ≠ some Path.separator :=
    fun h => hname.1.notMem (List.mem_of_mem_head? h)
  by_cases hslash : p.path.getLast? = some Path.separator
  · obtain ⟨front, hfront⟩ : ∃ front, p.path = front ++ [Path.separator] :=
      ⟨_, (List.dropLast_append_getLast? _ hslash).symm⟩
    have hpath : (p.append ⟨name⟩).path = p.path ++ name := by simp [Path.append, hslash]
    rw [hpath, hfront, List.append_assoc, List.singleton_append, names_append_sep,
      names_append_sep, names_name hname]
    simp [names]
  · have hpath : (p.append ⟨name⟩).path = p.path ++ Path.separator :: name := by
      simp [Path.append, hslash, hp, hhead, hname.2]
    rw [hpath, names_append_sep, names_name hname]

theorem components_append {p : Path} {name : Name} (hp : p.path ≠ [])
    (hname : Path.Ordinary name) :
    components (p.append ⟨name⟩).path = names p.path ++ [name] := by
  obtain ⟨front, hfront⟩ : ∃ front, (p.append ⟨name⟩).path = front ++ name := by
    rw [Path.append]
    split
    · exact ⟨_, rfl⟩
    · exact ⟨_, rfl⟩
  have hlast : (p.append ⟨name⟩).path.getLast? ≠ some Path.separator := by
    rw [hfront, List.getLast?_append]
    obtain ⟨_, hc, hne⟩ := hname.1.getLast hname.2
    simpa [hc] using hne
  rw [components, if_neg hlast, List.append_nil, names_append hp hname]

section

variable {p : Path}

theorem cStr_eq (h : (0 : UInt8) ∉ p.path) : p.cStr = p.path := by
  rw [Path.cStr, List.takeWhile_eq_self_iff]
  intro c hc
  have hne : c ≠ 0 := fun heq => h (heq ▸ hc)
  simpa using hne

/-- Behind a NUL it does not matter what is appended. -/
theorem cStr_append_of_nul (h : (0 : UInt8) ∈ p.path) (q : Path) :
    (p.append q).cStr = p.cStr ∧ (0 : UInt8) ∈ (p.append q).path := by
  obtain ⟨back, hback⟩ : ∃ back, (p.append q).path = p.path ++ back := by
    rw [Path.append]
    split
    · exact ⟨_, rfl⟩
    · exact ⟨_, List.append_assoc _ _ _⟩
  refine ⟨?_, by simp [hback, h]⟩
  rw [Path.cStr, hback, List.takeWhile_append, if_neg, Path.cStr]
  intro hlen
  have hall := List.takeWhile_eq_self_iff.mp ((List.takeWhile_prefix _).eq_of_length hlen)
  simpa using hall 0 h

theorem nul_notMem_append {name : Name} (h : (0 : UInt8) ∉ p.path) (hname : Path.Ordinary name) :
    (0 : UInt8) ∉ (p.append ⟨name⟩).path := by
  have hnul := hname.1.nul_notMem
  have hsep : (0 : UInt8) ≠ Path.separator := by decide
  rw [Path.append]
  split <;> simp [h, hnul, hsep]

theorem append_head {name : Name} (hp : p.path ≠ []) :
    (p.append ⟨name⟩).path.head? = p.path.head? := by
  obtain ⟨c, text, htext⟩ := List.exists_cons_of_ne_nil hp
  rw [Path.append]
  split <;> simp [htext]

theorem lookup_append {fs : FileSystem} {name : Name} (hnul : (0 : UInt8) ∉ p.path)
    (hp : p.path ≠ []) (hname : Path.Ordinary name) (follow : Bool) :
    fs.lookup follow (p.append ⟨name⟩).cStr =
      fs.walk follow fs.symloopMax (FileSystem.start fs.currentPath p.path)
        (names p.path ++ [name]) := by
  have hne : (p.append ⟨name⟩).path ≠ [] := by
    rw [Path.append]
    split <;> simp [hp]
  rw [cStr_eq (nul_notMem_append hnul hname), FileSystem.lookup, if_neg hne,
    components_append hp hname, FileSystem.start, FileSystem.start, append_head hp]

/-- The names of a directory, without a slash behind them. -/
theorem resolves_names {fs : FileSystem} {text : Text} {loc : Location}
    (h : fs.lookup true text = .ok loc) :
    FileSystem.Resolves fs true fs.symloopMax (FileSystem.start fs.currentPath text) (names text)
      loc := by
  obtain ⟨-, hres⟩ := FileSystem.lookup_eq_ok h
  rw [components] at hres
  split at hres
  · exact hres.trailing_inv
  · rwa [List.append_nil] at hres

/-- **An entry of a directory is found through the path of the directory.** -/
theorem lookup_entry {fs : FileSystem} {name : Name} {dir loc : Location} {follow : Bool}
    (hnul : (0 : UInt8) ∉ p.path) (hname : ValidName name) (hdir : fs.lookup true p.cStr = .ok dir)
    (h : fs.lookup follow (p.append ⟨name⟩).cStr = .ok loc) :
    ∃ n, n ≤ fs.symloopMax ∧ FileSystem.Resolves fs follow n dir [name] loc := by
  rw [cStr_eq hnul] at hdir
  rw [lookup_append hnul (FileSystem.lookup_eq_ok hdir).1 hname.element] at h
  obtain ⟨mid, hmid, n, hn, hlast⟩ := (FileSystem.walk_eq_ok.mp h).splits (by simp)
  have hwalk := FileSystem.walk_of_resolves hmid
  rw [FileSystem.walk_of_resolves (resolves_names hdir)] at hwalk
  cases hwalk
  exact ⟨n, hn, hlast⟩

/-! ## §6 Status -/

variable {fs : FileSystem}

theorem stat_eq_ok {text : Text} {follow : Bool} {entry : Entry} :
    fs.stat follow text = .ok entry ↔
      ∃ loc, fs.lookup follow text = .ok loc ∧ fs.find loc = some entry := by
  rw [FileSystem.stat]
  split
  · simp_all
  · rename_i loc hloc
    cases hfind : fs.find loc with
    | none => simp [hloc, hfind]
    | some found => simp [hloc, hfind]

theorem status_directory (h : (status fs p).1 = .directory) :
    ∃ loc perms, fs.lookup true p.cStr = .ok loc ∧ fs.find loc = some (.directory perms) := by
  rw [status] at h
  cases hstat : fs.stat true p.cStr with
  | error errno =>
    rw [hstat] at h
    cases errno <;> cases h
  | ok entry =>
    obtain ⟨loc, hloc, hfind⟩ := stat_eq_ok.mp hstat
    rw [hstat] at h
    cases entry with
    | file => cases h
    | symlink target => cases h
    | directory perms => exact ⟨loc, perms, hloc, hfind⟩

/-- A directory that is not reached through a link at the end of its path. -/
theorem lookup_of_not_symlink {loc : Location} (h : (symlinkStatus fs p).1 ≠ .symlink)
    (hlookup : fs.lookup true p.cStr = .ok loc) : fs.lookup false p.cStr = .ok loc := by
  obtain ⟨hne, hres⟩ := FileSystem.lookup_eq_ok hlookup
  obtain hsame | ⟨dir, name, target, n, hlink, hfind, -⟩ := hres.unfollowed
  · rw [FileSystem.lookup, if_neg hne, FileSystem.walk_eq_ok.mpr hsame]
  · have hfalse : fs.lookup false p.cStr = .ok (dir ++ [name]) := by
      rw [FileSystem.lookup, if_neg hne, FileSystem.walk_eq_ok.mpr hlink]
    have hstat : fs.stat false p.cStr = .ok (.symlink target) := stat_eq_ok.mpr ⟨_, hfalse, hfind⟩
    rw [symlinkStatus, hstat] at h
    exact absurd rfl h

end

end Acatl.Filesystem
