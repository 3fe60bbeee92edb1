/-
Acatl.RecursiveIteration — a recursive directory iterator visits every entry
once and comes to its end, along runs all of whose calls are `Allowed`.

An `increment` at a directory that cannot be opened leaves the iterator where it
is, and so does one with an error code that is already set; a `pop` from the
second level on goes back to the directory that was left, whose entries then come
again. Each of these yields an entry twice, so that the condition is exact.

The entries below the root are the nodes of a tree (`tree_children`), each of
which is a list of names, and the stack of the iterator is one of
`Lib.DepthFirst` over it (`increment_places`).
-/
import Mathlib.Data.List.Perm.Subperm
import Acatl.Lib.DepthFirst
import Acatl.DirectoryIterator
import Acatl.PathResolution

namespace Acatl.Filesystem

open Lib.DepthFirst FileSystem

/-! ## §1 What a run is to do -/

/-- A directory, and no link to one. -/
def IsRealDirectory (fs : FileSystem) (q : Path) : Prop :=
  (status fs q).1 = .directory ∧ (symlinkStatus fs q).1 ≠ .symlink

instance (fs : FileSystem) (q : Path) : Decidable (IsRealDirectory fs q) :=
  inferInstanceAs (Decidable (_ ∧ _))

/-- The entries that can be reached through directories that can be opened,
without going through links. -/
inductive Reachable (fs : FileSystem) (p : Path) : Path → Prop
  | root {names : List Name} {name : Name} (hopen : fs.opendir p.cStr = .ok names)
      (hname : name ∈ names) : Reachable fs p (p.append ⟨name⟩)
  | entry {q : Path} {names : List Name} {name : Name} (hq : Reachable fs p q)
      (hreal : IsRealDirectory fs q) (hopen : fs.opendir q.cStr = .ok names)
      (hname : name ∈ names) : Reachable fs p (q.append ⟨name⟩)

/-- Two paths of one entry. -/
def SameEntry (fs : FileSystem) (q q' : Path) : Prop :=
  q = q' ∨ ∃ loc, fs.lookup false q.cStr = .ok loc ∧ fs.lookup false q'.cStr = .ok loc

namespace RecursiveIterator

/-- The condition of a call: `increment` is not called with an error code at a
directory that has entries, nor at a directory that cannot be opened, and `pop`
only on the first level or at the end. -/
def Allowed (fs : FileSystem) (it : RecursiveIterator) : Call → Prop
  | .increment ec => ∀ q, it.current = some q → IsRealDirectory fs q →
      ∃ names, fs.opendir q.cStr = .ok names ∧ (ec = none ∨ names = [])
  | .pop => it.depth ≤ 1

/-- A run visits every entry once and comes to its end. -/
structure Visits (fs : FileSystem) (p : Path) (cs : List Call) : Prop where
  once : (yields fs p cs).Pairwise fun q q' => ¬ SameEntry fs q q'
  ends : fs.entries.length ≤ cs.length → ((calls fs).after (construct fs p) cs).isEnd = true
  within : ∀ q ∈ yields fs p cs, Reachable fs p q
  covers : Call.pop ∉ cs → ((calls fs).after (construct fs p) cs).isEnd = true →
    ∀ q, Reachable fs p q → q ∈ yields fs p cs

end RecursiveIterator

/-! ## §2 The tree below a root -/

section

variable (fs : FileSystem) (p : Path)

/-- The path of an entry below the root. -/
def pathTo (rel : List Name) : Path := rel.foldl (fun q name => q.append ⟨name⟩) p

@[simp] theorem pathTo_nil : pathTo p [] = p := rfl

@[simp] theorem pathTo_append (rel : List Name) (name : Name) :
    pathTo p (rel ++ [name]) = (pathTo p rel).append ⟨name⟩ := by
  simp [pathTo]

/-- The names in a directory below the root, if it can be opened. -/
def namesIn (rel : List Name) : List Name :=
  if rel = [] ∨ IsRealDirectory fs (pathTo p rel) then
    match fs.opendir (pathTo p rel).cStr with
    | .ok names => names
    | .error _ => []
  else []

def childrenIn (rel : List Name) : List (List Name) := (namesIn fs p rel).map (rel ++ [·])

/-- An entry below the root, or the root. -/
def Node (rel : List Name) : Prop :=
  Relation.ReflTransGen (fun a c => c ∈ childrenIn fs p a) [] rel

end

variable {fs : FileSystem} {p : Path} {dir : Location} {rel : List Name} {name : Name}

theorem mem_namesIn : name ∈ namesIn fs p rel ↔
    (rel = [] ∨ IsRealDirectory fs (pathTo p rel)) ∧
      ∃ names, fs.opendir (pathTo p rel).cStr = .ok names ∧ name ∈ names := by
  rw [namesIn]
  split
  · rename_i hopens
    cases hopen : fs.opendir (pathTo p rel).cStr with
    | ok names => simp [hopens]
    | error errno => simp
  · rename_i hopens
    simp [hopens]

theorem opendir_dir {text : Text} {names : List Name} (hname : name ∈ names)
    (hopen : fs.opendir text = .ok names) (hdir : fs.lookup true text = .ok dir) :
    name ∈ fs.children dir := by
  rw [opendir, hdir] at hopen
  obtain ⟨perms, -, -, rfl⟩ := list_eq_ok.mp hopen
  exact hname

/-- What holds of a node: its names are valid, and its path leads to the place
below that of the root. -/
structure Placed (fs : FileSystem) (p : Path) (dir : Location) (rel : List Name) : Prop where
  valid : ∀ name ∈ rel, ValidName name
  opened : ∀ name ∈ namesIn fs p rel, fs.lookup true (pathTo p rel).cStr = .ok (dir ++ rel)
  found : rel ≠ [] → ∀ loc, fs.lookup false (pathTo p rel).cStr = .ok loc → loc = dir ++ rel
  nul : (0 : UInt8) ∉ (pathTo p rel).path
  names_eq : names (pathTo p rel).path = names p.path ++ rel
  ne_nil : (pathTo p rel).path ≠ []

theorem placed_of_node (hnul : (0 : UInt8) ∉ p.path) (hdir : fs.lookup true p.cStr = .ok dir)
    (h : Node fs p rel) : Placed fs p dir rel := by
  induction h with
  | refl =>
    exact {
      valid := by simp
      opened := fun _ _ => by simpa using hdir
      found := by simp
      nul := hnul
      names_eq := by simp
      ne_nil := by
        have hne := (lookup_eq_ok hdir).1
        rwa [cStr_eq hnul] at hne }
  | @tail rel child hrel hchild ih =>
    obtain ⟨name, hname, rfl⟩ := List.mem_map.mp hchild
    obtain ⟨-, ns, hopen, hmem⟩ := mem_namesIn.mp hname
    have hlookup := ih.opened name hname
    have hvalid := valid_of_mem_children (opendir_dir hmem hopen hlookup)
    have hfound : ∀ loc, fs.lookup false (pathTo p (rel ++ [name])).cStr = .ok loc →
        loc = dir ++ (rel ++ [name]) := by
      intro loc hloc
      rw [pathTo_append] at hloc
      obtain ⟨n, -, hres⟩ := lookup_entry ih.nul hvalid hlookup hloc
      rw [hres.single hvalid.ordinary, List.append_assoc]
    exact {
      valid := by
        intro other hother
        obtain hother | hother := List.mem_append.mp hother
        · exact ih.valid other hother
        · rwa [List.mem_singleton.mp hother]
      opened := by
        intro other hother
        obtain ⟨hreal, -⟩ := mem_namesIn.mp hother
        obtain hnil | ⟨hstatus, hlink⟩ := hreal
        · simp at hnil
        · obtain ⟨loc, perms, hloc, -⟩ := status_directory hstatus
          rwa [← hfound loc (lookup_of_not_symlink hlink hloc)]
      found := fun _ => hfound
      nul := by
        rw [pathTo_append]
        exact nul_notMem_append ih.nul hvalid.element
      names_eq := by
        rw [pathTo_append, names_append ih.ne_nil hvalid.element, ih.names_eq, List.append_assoc]
      ne_nil := by
        have hne := ih.ne_nil
        rw [pathTo_append, Path.append]
        split <;> simp [hne] }

theorem Placed.mem_locations (h : Placed fs p dir rel) (hname : name ∈ namesIn fs p rel) :
    dir ++ rel ++ [name] ∈ fs.locations := by
  obtain ⟨-, ns, hopen, hmem⟩ := mem_namesIn.mp hname
  exact fs.mem_children.mp (opendir_dir hmem hopen (h.opened name hname))

theorem namesIn_nodup (h : Placed fs p dir rel) : (namesIn fs p rel).Nodup := by
  cases hnames : namesIn fs p rel with
  | nil => exact List.nodup_nil
  | cons name rest =>
    have hlookup := h.opened name (by simp [hnames])
    obtain ⟨hreal, ns, hopen, -⟩ := mem_namesIn.mp (show name ∈ namesIn fs p rel by simp [hnames])
    rw [← hnames, namesIn, if_pos hreal, hopen]
    rw [opendir, hlookup] at hopen
    obtain ⟨perms, -, -, rfl⟩ := list_eq_ok.mp hopen
    exact children_nodup fs _

/-- The entries below the root are a tree. -/
theorem tree_children (hnul : (0 : UInt8) ∉ p.path) (hdir : fs.lookup true p.cStr = .ok dir)
    {depth : Nat} (hdepth : ∀ loc ∈ fs.locations, loc.length ≤ depth) :
    Tree (childrenIn fs p) (Node fs p) fun rel => depth - rel.length where
  closed _ _ hrel hchild := hrel.tail hchild
  rank_lt rel child hrel hchild := by
    obtain ⟨name, hname, rfl⟩ := List.mem_map.mp hchild
    have hlen := hdepth _ ((placed_of_node hnul hdir hrel).mem_locations hname)
    simp only [List.length_append, List.length_singleton] at hlen ⊢
    omega
  nodup rel hrel := by
    refine List.Nodup.map (fun name name' h => ?_) (namesIn_nodup (placed_of_node hnul hdir hrel))
    simpa using h
  parent rel rel' child _ _ hchild hchild' := by
    obtain ⟨name, -, rfl⟩ := List.mem_map.mp hchild
    obtain ⟨name', -, h⟩ := List.mem_map.mp hchild'
    exact (List.append_inj' h rfl).1.symm

theorem node_below (h : Below (childrenIn fs p) [] rel) : Node fs p rel ∧ rel ≠ [] := by
  refine ⟨h.to_reflTransGen, ?_⟩
  cases h with
  | single hchild =>
    obtain ⟨name, -, rfl⟩ := List.mem_map.mp hchild
    simp
  | tail _ hchild =>
    obtain ⟨name, -, rfl⟩ := List.mem_map.mp hchild
    simp

/-- An entry below the root is in the file system. -/
theorem mem_locations_of_below (hnul : (0 : UInt8) ∉ p.path)
    (hdir : fs.lookup true p.cStr = .ok dir) (h : Below (childrenIn fs p) [] rel) :
    dir ++ rel ∈ fs.locations := by
  obtain ⟨a, hnode, hchild⟩ := Relation.TransGen.tail'_iff.mp h
  obtain ⟨name, hname, rfl⟩ := List.mem_map.mp hchild
  rw [← List.append_assoc]
  exact (placed_of_node hnul hdir hnode).mem_locations hname

/-- The entries below the root are those that can be reached. -/
theorem reachable_iff (q : Path) :
    Reachable fs p q ↔ ∃ rel, Below (childrenIn fs p) [] rel ∧ q = pathTo p rel := by
  refine ⟨fun h => ?_, fun h => ?_⟩
  · induction h with
    | @root ns name hopen hname =>
      have hmem : name ∈ namesIn fs p [] := mem_namesIn.mpr ⟨.inl rfl, ns, hopen, hname⟩
      exact ⟨[name], .single (List.mem_map_of_mem hmem), rfl⟩
    | @entry q ns name hq hreal hopen hname ih =>
      obtain ⟨rel, hrel, rfl⟩ := ih
      have hmem : name ∈ namesIn fs p rel := mem_namesIn.mpr ⟨.inr hreal, ns, hopen, hname⟩
      exact ⟨rel ++ [name], .tail hrel (List.mem_map_of_mem hmem), (pathTo_append p rel name).symm⟩
  · obtain ⟨rel, hrel, rfl⟩ := h
    induction hrel with
    | single hchild =>
      obtain ⟨name, hname, rfl⟩ := List.mem_map.mp hchild
      obtain ⟨-, ns, hopen, hmem⟩ := mem_namesIn.mp hname
      exact .root hopen hmem
    | @tail rel child hrel hchild ih =>
      obtain ⟨name, hname, rfl⟩ := List.mem_map.mp hchild
      obtain ⟨hnil | hreal, ns, hopen, hmem⟩ := mem_namesIn.mp hname
      · exact absurd hnil (node_below hrel).2
      · rw [pathTo_append]
        exact .entry ih hreal hopen hmem

/-- The paths of two entries below the root are not those of one. -/
theorem eq_of_sameEntry {rel' : List Name} (hnul : (0 : UInt8) ∉ p.path)
    (hdir : fs.lookup true p.cStr = .ok dir) (h : Below (childrenIn fs p) [] rel)
    (h' : Below (childrenIn fs p) [] rel')
    (hsame : SameEntry fs (pathTo p rel) (pathTo p rel')) : rel = rel' := by
  obtain ⟨hnode, hne⟩ := node_below h
  obtain ⟨hnode', hne'⟩ := node_below h'
  have hplaced := placed_of_node hnul hdir hnode
  have hplaced' := placed_of_node hnul hdir hnode'
  obtain heq | ⟨loc, hloc, hloc'⟩ := hsame
  · have hnames := hplaced'.names_eq
    rw [← heq, hplaced.names_eq] at hnames
    exact List.append_cancel_left hnames
  · have hplace := (hplaced.found hne loc hloc).symm.trans (hplaced'.found hne' loc hloc')
    exact List.append_cancel_left hplace

/-! ## §3 The stack -/

/-- What an iterator of the stack is at: a directory below the root, the name of
the entry, and the names still to come. -/
structure Place where
  dir : List Name
  name : Name
  rest : List Name

namespace Place

/-- The entry. -/
def entry (place : Place) : List Name := place.dir ++ [place.name]

def iterator (p : Path) (place : Place) : DirectoryIterator :=
  ⟨pathTo p place.dir, pathTo p place.entry, some place.rest⟩

def frame (place : Place) : List Name × List (List Name) :=
  (place.entry, place.rest.map (place.dir ++ [·]))

end Place

namespace RecursiveIterator

/-- The iterator with these places. -/
def ofPlaces (p : Path) (places : List Place) : RecursiveIterator where
  iteratorStack := places.map (Place.iterator p)

@[simp] theorem current_ofPlaces (places : List Place) :
    (ofPlaces p places).current = places.head?.map fun place => pathTo p place.entry := by
  cases places <;> rfl

@[simp] theorem depth_ofPlaces (places : List Place) :
    (ofPlaces p places).depth = places.length := by
  simp [depth, ofPlaces]

theorem stack_ofPlaces (place : Place) (places : List Place) :
    (ofPlaces p (place :: places)).iteratorStack =
      place.iterator p :: places.map (Place.iterator p) := rfl

theorem findNextEntry_here {top : DirectoryIterator} (h : top.isEnd = false)
    (rest : List DirectoryIterator) : findNextEntry top rest = top :: rest := by
  cases rest <;> simp [findNextEntry, h]

/-- From the end of a directory, the iterator goes on as the stack does. -/
theorem findNextEntry_end {top : DirectoryIterator} (h : top.isEnd = true) (places : List Place) :
    ∃ places' : List Place, findNextEntry top (places.map (Place.iterator p)) =
        places'.map (Place.iterator p) ∧
      places'.map Place.frame = skip (places.map Place.frame) := by
  induction places generalizing top with
  | nil => exact ⟨[], by simp [findNextEntry, h], rfl⟩
  | cons place places ih =>
    obtain ⟨dir, name, rest⟩ := place
    have hopen : (Place.iterator p ⟨dir, name, rest⟩).isEnd = false := rfl
    rw [List.map_cons, findNextEntry, if_pos h, hopen, if_neg (by simp)]
    cases rest with
    | nil => exact ih rfl
    | cons next rest =>
      have hnext : (Place.iterator p ⟨dir, name, next :: rest⟩).increment =
          Place.iterator p ⟨dir, next, rest⟩ := by
        simp [Place.iterator, Place.entry, DirectoryIterator.increment, DirectoryIterator.readdir]
      rw [hnext, findNextEntry_here rfl]
      exact ⟨⟨dir, next, rest⟩ :: places, rfl, rfl⟩

theorem findNextEntry_increment (place : Place) (rest : List DirectoryIterator)
    {top : DirectoryIterator} (h : top.isEnd = true) :
    findNextEntry (place.iterator p).increment rest =
      findNextEntry top (place.iterator p :: rest) := by
  rw [findNextEntry, if_pos h]
  rfl

theorem open_empty {q : Path} (h : fs.opendir q.cStr = .ok []) (ec : ErrorCode) :
    DirectoryIterator.open fs q ec = (⟨q, ⟨[]⟩, none⟩, none) := by
  simp [DirectoryIterator.open, h, DirectoryIterator.readdir]

theorem open_cons {name : Name} {ns : List Name}
    (h : fs.opendir (pathTo p rel).cStr = .ok (name :: ns)) (ec : ErrorCode) :
    DirectoryIterator.open fs (pathTo p rel) ec = (Place.iterator p ⟨rel, name, ns⟩, ec) := by
  simp [DirectoryIterator.open, h, DirectoryIterator.readdir, Place.iterator, Place.entry]

section

variable {it : RecursiveIterator} {top : DirectoryIterator} {rest : List DirectoryIterator}
  {e : ErrorCode}

theorem increment_along (hstack : it.iteratorStack = top :: rest)
    (h : it.descends fs top.dirEntry = false) :
    (it.increment fs e).1 = { it with iteratorStack := findNextEntry top.increment rest } := by
  simp [increment, hstack, h]

theorem increment_down (hstack : it.iteratorStack = top :: rest)
    (h : it.descends fs top.dirEntry = true)
    (hopen : (DirectoryIterator.open fs top.dirEntry e).2 = none) :
    (it.increment fs e).1 = { it with
      iteratorStack :=
        findNextEntry (DirectoryIterator.open fs top.dirEntry e).1 (top :: rest) } := by
  simp [increment, hstack, h, hopen]

theorem increment_failed (hstack : it.iteratorStack = top :: rest)
    (h : it.descends fs top.dirEntry = true)
    (hopen : (DirectoryIterator.open fs top.dirEntry e).2 ≠ none) :
    (it.increment fs e).1 = it := by
  simp [increment, hstack, h, hopen]

end

/-- The iterator goes down at real directories. -/
theorem descends_ofPlaces (p : Path) (places : List Place) (q : Path) :
    descends fs (ofPlaces p places) q = true ↔ IsRealDirectory fs q := by
  simp [descends, ofPlaces, IsRealDirectory]

theorem next_leaf {place : Place} {stack : Stack (List Name)} (h : namesIn fs p place.entry = []) :
    next (childrenIn fs p) (place.frame :: stack) = skip (place.frame :: stack) := by
  simp only [next, Place.frame, childrenIn, h, List.map_nil]

/-- **An allowed `increment` is a step of the walk through the tree.** -/
theorem increment_places {places : List Place} {ec : ErrorCode}
    (h : Allowed fs (ofPlaces p places) (.increment ec)) :
    ∃ places' : List Place, ((ofPlaces p places).increment fs ec).1 = ofPlaces p places' ∧
      places'.map Place.frame = next (childrenIn fs p) (places.map Place.frame) := by
  cases places with
  | nil => exact ⟨[], rfl, rfl⟩
  | cons place places =>
    by_cases hreal : IsRealDirectory fs (pathTo p place.entry)
    · obtain ⟨ns, hopen, hec⟩ := h (pathTo p place.entry) rfl hreal
      have hdescends := (descends_ofPlaces p (place :: places) _).mpr hreal
      have hnames : namesIn fs p place.entry = ns := by
        rw [namesIn, if_pos (.inr hreal), hopen]
      cases ns with
      | nil =>
        have hnew := open_empty hopen ec
        have hend : DirectoryIterator.isEnd ⟨pathTo p place.entry, ⟨[]⟩, none⟩ = true := rfl
        obtain ⟨places', hfind, hskip⟩ := findNextEntry_end (p := p) hend (place :: places)
        refine ⟨places', ?_, hskip.trans (next_leaf hnames).symm⟩
        have hdown := increment_down (e := ec) (stack_ofPlaces place places) hdescends
          (congrArg Prod.snd hnew)
        have hiter : (DirectoryIterator.open fs (place.iterator p).dirEntry ec).1 =
            ⟨pathTo p place.entry, ⟨[]⟩, none⟩ := congrArg Prod.fst hnew
        rw [hdown, hiter, ofPlaces, ofPlaces, ← hfind]
        rfl
      | cons name ns =>
        obtain rfl : ec = none := by simpa using hec
        have hnew := open_cons hopen none
        refine ⟨⟨place.entry, name, ns⟩ :: place :: places, ?_, ?_⟩
        · have hdown := increment_down (e := none) (stack_ofPlaces place places) hdescends
            (congrArg Prod.snd hnew)
          have hiter : (DirectoryIterator.open fs (place.iterator p).dirEntry none).1 =
              Place.iterator p ⟨place.entry, name, ns⟩ := congrArg Prod.fst hnew
          rw [hdown, hiter, findNextEntry_here rfl]
          rfl
        · simp only [next, Place.frame, childrenIn, hnames, List.map_cons]
          rfl
    · have hdescends := mt (descends_ofPlaces p (place :: places) _).mp hreal
      have hnames : namesIn fs p place.entry = [] := by
        rw [namesIn, if_neg (not_or.mpr ⟨by simp [Place.entry], hreal⟩)]
      have hend : DirectoryIterator.isEnd ⟨p, p, none⟩ = true := rfl
      obtain ⟨places', hfind, hskip⟩ := findNextEntry_end (p := p) hend (place :: places)
      rw [List.map_cons, ← findNextEntry_increment place _ rfl] at hfind
      refine ⟨places', ?_, hskip.trans (next_leaf hnames).symm⟩
      rw [increment_along (stack_ofPlaces place places) (Bool.eq_false_iff.mpr hdescends), ofPlaces,
        ofPlaces, ← hfind]

/-! ## §4 Allowed runs -/

/-- The entry at which the iterator is. -/
def currentOf (places : List Place) : List (List Name) := (places.head?.map Place.entry).toList

/-- After an allowed run: the entries that the iterator has left behind, and the
stack with what is ahead of it. -/
structure Progress (fs : FileSystem) (p : Path) (depth : Nat) (cs : List Call)
    (it : RecursiveIterator) (places : List Place) (seen : List (List Name)) : Prop where
  state : it = ofPlaces p places
  yielded : yields fs p cs = (seen ++ currentOf places).map (pathTo p)
  order : seen ++ ahead (childrenIn fs p) depth (places.map Place.frame) <+:
    below (childrenIn fs p) depth []
  whole : Call.pop ∉ cs → seen ++ ahead (childrenIn fs p) depth (places.map Place.frame) =
    below (childrenIn fs p) depth []
  stacked : ∀ place ∈ places, place.entry ∈ seen ++ currentOf places
  count : places ≠ [] → seen.length = cs.length

theorem yields_append (cs : List Call) (c : Call) :
    yields fs p (cs ++ [c]) = yields fs p cs ++
      (calls fs ((calls fs).after (construct fs p) cs) c).2.current.toList := by
  have hcurrent (o : Option Path) : [o].filterMap id = o.toList := by cases o <;> rfl
  rw [yields, yields, Lib.Machine.outputs_append, ← List.cons_append, List.filterMap_append,
    Lib.Machine.outputs_cons, Lib.Machine.outputs_nil, hcurrent]
  cases c <;> rfl

theorem ahead_places (depth : Nat) (places : List Place) :
    ahead (childrenIn fs p) depth (places.map Place.frame) =
      currentOf places ++ (ahead (childrenIn fs p) depth (places.map Place.frame)).tail := by
  have hhead : ((places.map Place.frame).head?.map Prod.fst).toList = currentOf places := by
    cases places <;> rfl
  rw [← hhead]
  exact ahead_eq _

/-- What has been visited is below the root. -/
theorem Progress.below {depth : Nat} {cs : List Call} {it : RecursiveIterator} {places : List Place}
    {seen : List (List Name)} (h : Progress fs p depth cs it places seen) :
    seen ++ currentOf places <+: Lib.DepthFirst.below (childrenIn fs p) depth [] := by
  have horder := h.order
  rw [ahead_places, ← List.append_assoc] at horder
  exact (List.prefix_append _ _).trans horder

section

variable (hnul : (0 : UInt8) ∉ p.path) (hdir : fs.lookup true p.cStr = .ok dir) {depth : Nat}
  (hdepth : ∀ loc ∈ fs.locations, loc.length ≤ depth) {cs : List Call} {it : RecursiveIterator}
  {places : List Place} {seen : List (List Name)}
include hnul hdir hdepth

theorem mem_below_root :
    rel ∈ Lib.DepthFirst.below (childrenIn fs p) depth [] ↔ Below (childrenIn fs p) [] rel :=
  (tree_children hnul hdir hdepth).mem_below .refl (Nat.sub_le _ _)

theorem Progress.increment (h : Progress fs p depth cs it places seen) {ec : ErrorCode}
    (hallowed : Allowed fs it (.increment ec))
    (hafter : (calls fs).after (construct fs p) cs = it) :
    ∃ places', Progress fs p depth (cs ++ [.increment ec]) (it.increment fs ec).1 places'
      (seen ++ currentOf places) := by
  have htree := tree_children hnul hdir hdepth
  obtain rfl := h.state
  obtain ⟨places', hnext, hframes⟩ := increment_places hallowed
  have hahead : seen ++ currentOf places ++
      ahead (childrenIn fs p) depth (places'.map Place.frame) =
        seen ++ ahead (childrenIn fs p) depth (places.map Place.frame) := by
    rw [ahead_places depth places, hframes, htree.ahead_next, List.append_assoc]
    intro f hf
    cases places with
    | nil => cases hf
    | cons place places =>
      cases hf
      have hmem := h.below.subset (List.mem_append_right _ (List.mem_singleton_self place.entry))
      exact ⟨(node_below ((mem_below_root hnul hdir hdepth).mp hmem)).1, Nat.sub_le _ _⟩
  refine ⟨places', hnext, ?_, ?_, ?_, ?_, ?_⟩
  · rw [yields_append, h.yielded, hafter, List.map_append]
    have hcurrent : (calls fs (ofPlaces p places) (.increment ec)).2.current =
        (ofPlaces p places').current := congrArg current hnext
    rw [hcurrent, current_ofPlaces]
    cases places' <;> simp [currentOf]
  · rw [hahead]
    exact h.order
  · intro hpop
    rw [hahead]
    exact h.whole fun hmem => hpop (List.mem_append_left _ hmem)
  · intro place hplace
    cases places' with
    | nil => cases hplace
    | cons first places' =>
      obtain rfl | hplace := List.mem_cons.mp hplace
      · exact List.mem_append_right _ (List.mem_singleton_self _)
      · have hframe : place.frame ∈ (next (childrenIn fs p) (places.map Place.frame)).tail := by
          rw [← hframes]
          exact List.mem_map_of_mem hplace
        obtain ⟨old, hold, heq⟩ := List.mem_map.mp (mem_tail_next hframe)
        have hentry : old.entry = place.entry := congrArg Prod.fst heq
        exact List.mem_append_left _ (hentry ▸ h.stacked old hold)
  · intro hne
    cases places with
    | nil =>
      cases places' with
      | nil => exact absurd rfl hne
      | cons first places' => cases hframes
    | cons place places => simp [currentOf, h.count (by simp)]

end

theorem Progress.pop {depth : Nat} {cs : List Call} {it : RecursiveIterator} {places : List Place}
    {seen : List (List Name)} (h : Progress fs p depth cs it places seen)
    (hallowed : Allowed fs it .pop) (hafter : (calls fs).after (construct fs p) cs = it) :
    Progress fs p depth (cs ++ [.pop]) it.pop [] (seen ++ currentOf places) := by
  obtain rfl := h.state
  have hpop : (ofPlaces p places).pop = ofPlaces p [] := by
    cases places with
    | nil => rfl
    | cons place places =>
      cases places with
      | nil => rfl
      | cons next places =>
        have hlen : (ofPlaces p (place :: next :: places)).depth ≤ 1 := hallowed
        rw [depth_ofPlaces] at hlen
        simp at hlen
  refine ⟨hpop, ?_, ?_, by simp, by simp, by simp⟩
  · rw [yields_append, h.yielded, hafter]
    have hcurrent : (calls fs (ofPlaces p places) .pop).2.current = none := by
      rw [show (calls fs (ofPlaces p places) .pop).2 = (ofPlaces p places).pop from rfl, hpop]
      rfl
    simp [hcurrent, currentOf]
  · simpa [ahead] using h.below

/-- The iterator that is constructed on a root that can be opened. -/
theorem progress_construct {names : List Name} (hopen : fs.opendir p.cStr = .ok names)
    {depth : Nat} (htree : Tree (childrenIn fs p) (Node fs p) fun rel => depth - rel.length) :
    ∃ places, Progress fs p depth [] (construct fs p) places [] := by
  have hnames : namesIn fs p [] = names := by
    rw [namesIn, if_pos (.inl rfl), pathTo_nil, hopen]
  have hroot : below (childrenIn fs p) depth [] =
      subtrees (childrenIn fs p) depth (names.map ([] ++ [·])) := by
    rw [htree.below_eq .refl (Nat.sub_le _ _), childrenIn, hnames]
  cases names with
  | nil =>
    have hnew : construct fs p = ofPlaces p [] := by
      rw [construct, RecursiveIterator.open, open_empty hopen]
      rfl
    refine ⟨[], hnew, ?_, ?_, fun _ => ?_, by simp, by simp⟩
    · rw [yields, hnew]
      rfl
    · rw [hroot]
      exact List.prefix_refl _
    · rw [hroot]
      rfl
  | cons name rest =>
    have hnew : construct fs p = ofPlaces p [⟨[], name, rest⟩] := by
      have hfirst : DirectoryIterator.open fs p none = (Place.iterator p ⟨[], name, rest⟩, none) :=
        show DirectoryIterator.open fs (pathTo p []) none = _ from open_cons hopen none
      rw [construct, RecursiveIterator.open, hfirst]
      rfl
    have hahead : [] ++ ahead (childrenIn fs p) depth ([⟨[], name, rest⟩].map Place.frame) =
        below (childrenIn fs p) depth [] := by
      rw [hroot]
      simp [ahead, Place.frame, Place.entry]
    refine ⟨[⟨[], name, rest⟩], hnew, ?_, ?_, fun _ => hahead, by simp [currentOf], by simp⟩
    · rw [yields, hnew]
      rfl
    · exact ⟨[], (List.append_nil _).trans hahead⟩

/-- **What an allowed run has done.** -/
theorem progress_of_along (hnul : (0 : UInt8) ∉ p.path) (hdir : fs.lookup true p.cStr = .ok dir)
    {depth : Nat} (hdepth : ∀ loc ∈ fs.locations, loc.length ≤ depth) {names : List Name}
    (hopen : fs.opendir p.cStr = .ok names) {cs : List Call}
    (h : (calls fs).Along (Allowed fs) (construct fs p) cs) :
    ∃ places seen, Progress fs p depth cs ((calls fs).after (construct fs p) cs) places seen := by
  induction cs using List.reverseRecOn with
  | nil =>
    obtain ⟨places, hplaces⟩ := progress_construct hopen (tree_children hnul hdir hdepth)
    exact ⟨places, [], hplaces⟩
  | append_singleton cs c ih =>
    obtain ⟨hbefore, hallowed, -⟩ := Lib.Machine.along_append.mp h
    obtain ⟨places, seen, hprogress⟩ := ih hbefore
    rw [Lib.Machine.after_append]
    cases c with
    | increment ec =>
      obtain ⟨places', hnext⟩ := hprogress.increment hnul hdir hdepth hallowed rfl
      exact ⟨places', _, hnext⟩
    | pop => exact ⟨[], _, hprogress.pop hallowed rfl⟩

/-! ## §5 Every entry once -/

theorem below_length (hnul : (0 : UInt8) ∉ p.path) (hdir : fs.lookup true p.cStr = .ok dir)
    {depth : Nat} (hdepth : ∀ loc ∈ fs.locations, loc.length ≤ depth) :
    (below (childrenIn fs p) depth []).length ≤ fs.entries.length := by
  have htree := tree_children hnul hdir hdepth
  have hnodup : ((below (childrenIn fs p) depth []).map (dir ++ ·)).Nodup :=
    List.Nodup.map (fun _ _ h => List.append_cancel_left h)
      (htree.nodup_below .refl (Nat.sub_le _ _))
  have hsub : (below (childrenIn fs p) depth []).map (dir ++ ·) ⊆ fs.locations := by
    intro loc hloc
    obtain ⟨rel, hrel, rfl⟩ := List.mem_map.mp hloc
    exact mem_locations_of_below hnul hdir ((mem_below_root hnul hdir hdepth).mp hrel)
  have hlen := (List.subperm_of_subset hnodup hsub).length_le
  rwa [List.length_map, locations, List.length_map] at hlen

/-- A call that is not allowed yields an entry for the second time. -/
theorem repeats_of_not_allowed {depth : Nat} {cs : List Call} {it : RecursiveIterator}
    {places : List Place} {seen : List (List Name)}
    (h : Progress fs p depth cs it places seen) {c : Call} (hnot : ¬ Allowed fs it c) :
    ∃ q ∈ yields fs p cs, (calls fs it c).2.current = some q := by
  obtain rfl := h.state
  cases places with
  | nil => cases c <;> simp [Allowed] at hnot
  | cons place places =>
    have hmem (other : Place) (hother : other ∈ place :: places) :
        pathTo p other.entry ∈ yields fs p cs := by
      rw [h.yielded]
      exact List.mem_map_of_mem (h.stacked other hother)
    cases c with
    | increment ec =>
      refine ⟨pathTo p place.entry, hmem place (by simp), ?_⟩
      have hstays : ((ofPlaces p (place :: places)).increment fs ec).1 =
          ofPlaces p (place :: places) := by
        simp only [Allowed, current_ofPlaces, not_forall] at hnot
        obtain ⟨q, hq, hreal, hnot⟩ := hnot
        cases hq
        refine increment_failed (stack_ofPlaces place places)
          ((descends_ofPlaces p (place :: places) _).mpr hreal) ?_
        cases hopen : fs.opendir (pathTo p place.entry).cStr with
        | error errno => simp [DirectoryIterator.open, Place.iterator, hopen]
        | ok names =>
          obtain ⟨hec, hne⟩ := not_or.mp (not_and.mp (not_exists.mp hnot names) hopen)
          obtain ⟨name, rest, rfl⟩ := List.exists_cons_of_ne_nil hne
          have hnew := congrArg Prod.snd (open_cons hopen ec)
          exact fun hnone => hec (hnew.symm.trans hnone)
      exact (congrArg current hstays).trans (current_ofPlaces _)
    | pop =>
      cases places with
      | nil => simp [Allowed] at hnot
      | cons next places =>
        refine ⟨pathTo p next.entry, hmem next (by simp), ?_⟩
        rfl

/-- The first call that is not allowed would yield an entry for the second time. -/
theorem along_of_once (hnul : (0 : UInt8) ∉ p.path) (hdir : fs.lookup true p.cStr = .ok dir)
    {depth : Nat} (hdepth : ∀ loc ∈ fs.locations, loc.length ≤ depth) {names : List Name}
    (hopen : fs.opendir p.cStr = .ok names) {cs : List Call}
    (honce : (yields fs p cs).Pairwise fun q q' => ¬ SameEntry fs q q') :
    (calls fs).Along (Allowed fs) (construct fs p) cs := by
  induction cs using List.reverseRecOn with
  | nil => trivial
  | append_singleton cs c ih =>
    rw [yields_append] at honce
    have hbefore := ih (List.pairwise_append.mp honce).1
    obtain ⟨places, seen, hprogress⟩ := progress_of_along hnul hdir hdepth hopen hbefore
    refine Lib.Machine.along_append.mpr ⟨hbefore, ?_, trivial⟩
    by_contra hnot
    obtain ⟨q, hq, hcurrent⟩ := repeats_of_not_allowed hprogress hnot
    rw [hcurrent] at honce
    exact (List.pairwise_append.mp honce).2.2 q hq q (by simp) (.inl rfl)

theorem visits_of_along (hnul : (0 : UInt8) ∉ p.path) (hdir : fs.lookup true p.cStr = .ok dir)
    {depth : Nat} (hdepth : ∀ loc ∈ fs.locations, loc.length ≤ depth) {names : List Name}
    (hopen : fs.opendir p.cStr = .ok names) {cs : List Call}
    (h : (calls fs).Along (Allowed fs) (construct fs p) cs) : Visits fs p cs := by
  have htree := tree_children hnul hdir hdepth
  obtain ⟨places, seen, hprogress⟩ := progress_of_along hnul hdir hdepth hopen h
  have hvisited : ∀ rel ∈ seen ++ currentOf places, Below (childrenIn fs p) [] rel :=
    fun rel hrel => (mem_below_root hnul hdir hdepth).mp (hprogress.below.subset hrel)
  have hend : ((calls fs).after (construct fs p) cs).isEnd = true ↔ places = [] := by
    rw [hprogress.state]
    cases places <;> simp [isEnd, ofPlaces]
  refine ⟨?_, ?_, ?_, ?_⟩
  · rw [hprogress.yielded, List.pairwise_map]
    have hnodup := (htree.nodup_below .refl (Nat.sub_le _ _)).sublist hprogress.below.sublist
    refine hnodup.imp_of_mem fun hrel hrel' hne hsame => hne ?_
    exact eq_of_sameEntry hnul hdir (hvisited _ hrel) (hvisited _ hrel') hsame
  · intro hlong
    rw [hend]
    by_contra hne
    obtain ⟨place, places, rfl⟩ := List.exists_cons_of_ne_nil hne
    have hlen := hprogress.below.length_le.trans (below_length hnul hdir hdepth)
    have hcount := hprogress.count hne
    simp only [currentOf, List.length_append, List.head?_cons, Option.map_some,
      Option.toList_some, List.length_singleton] at hlen
    omega
  · intro q hq
    rw [hprogress.yielded] at hq
    obtain ⟨rel, hrel, rfl⟩ := List.mem_map.mp hq
    exact (reachable_iff _).mpr ⟨rel, hvisited rel hrel, rfl⟩
  · intro hpop hatEnd q hq
    obtain rfl := hend.mp hatEnd
    obtain ⟨rel, hrel, rfl⟩ := (reachable_iff q).mp hq
    have hwhole := hprogress.whole hpop
    rw [hprogress.yielded]
    refine List.mem_map_of_mem ?_
    have hmem := (mem_below_root hnul hdir hdepth).mpr hrel
    rw [← hwhole] at hmem
    simpa [ahead, currentOf] using hmem

/-- **A recursive iterator visits every entry below its root once and comes to
its end, exactly in the runs all of whose calls are allowed.** -/
theorem visits_iff (fs : FileSystem) (p : Path) (names : List Name)
    (hnul : (0 : UInt8) ∉ p.path) (hopen : fs.opendir p.cStr = .ok names) (cs : List Call) :
    Visits fs p cs ↔ (calls fs).Along (Allowed fs) (construct fs p) cs := by
  obtain ⟨depth, hdepth⟩ := exists_depth fs
  obtain ⟨dir, hdir⟩ : ∃ dir, fs.lookup true p.cStr = .ok dir := by
    cases hlookup : fs.lookup true p.cStr with
    | ok dir => exact ⟨dir, rfl⟩
    | error errno => simp [opendir, hlookup] at hopen
  exact ⟨fun h => along_of_once hnul hdir hdepth hopen h.once,
    visits_of_along hnul hdir hdepth hopen⟩

/-- A directory `/d` with a file `f`, an empty directory `e`, a directory `s`
that cannot be listed, and a link `l` to `/d` itself. -/
def guarded : FileSystem :=
  .ofEntries [([[100]], .directory {}), ([[100], [102]], .file), ([[100], [101]], .directory {}),
    ([[100], [115]], .directory { readable := false }), ([[100], [108]], .symlink [47, 100])]
    {} 8 (by decide)

theorem visits_iff_guarded :
    Visits guarded ⟨[47, 100]⟩ [.increment none, .increment none, .pop] ↔
      (calls guarded).Along (Allowed guarded) (construct guarded ⟨[47, 100]⟩)
        [.increment none, .increment none, .pop] :=
  visits_iff guarded ⟨[47, 100]⟩ [[102], [101], [115], [108]] (by decide) (by decide) _

/-- At `/d/s` the iterator stays. -/
theorem not_always_visits :
    ¬ ∀ (fs : FileSystem) (p : Path) (names : List Name) (cs : List Call),
      (0 : UInt8) ∉ p.path → fs.opendir p.cStr = .ok names → Visits fs p cs := by
  intro h
  have honce := (h guarded ⟨[47, 100]⟩ [[102], [101], [115], [108]]
    [.increment none, .increment none, .increment none] (by decide) (by decide)).once
  have hyields : yields guarded ⟨[47, 100]⟩
      [.increment none, .increment none, .increment none] =
        [⟨[47, 100, 47, 102]⟩, ⟨[47, 100, 47, 101]⟩, ⟨[47, 100, 47, 115]⟩,
          ⟨[47, 100, 47, 115]⟩] := by decide
  rw [hyields] at honce
  simp [SameEntry] at honce

end RecursiveIterator

end Acatl.Filesystem
