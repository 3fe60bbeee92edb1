/-
Acatl.PathRoots — the four functions about the root of a path, which count the
separators at its beginning each on their own.

With a path cut into the separators at its beginning, the name behind them and
the rest, each of the four is one equation (`rootName_eq`, `rootDirectory_eq`,
`rootPath_eq`, `relativePath_eq`). Behind a root name `relative_path` skips one
separator only, and what is left begins with the next one (`recombines_iff`).
-/
import Acatl.PathDecomposition

namespace Acatl.Path

/-! ## §1 The four functions -/

section

variable {p : Path} {root name rest : Text}

theorem rootName_eq (hp : p.path = root ++ (name ++ rest)) (hroot : AllSeparators root)
    (hname : Plain name) (hrest : AtSeparator rest) (hend : name = [] → rest = []) :
    p.rootName.path = if root.length = 2 then root ++ name else [] := by
  have hskip := skipSeparators_zero hp hroot (hname.head hend)
  have hpath : p.path = root ++ name ++ rest := by rw [hp, List.append_assoc]
  have hscan := skipName_eq hpath hname hrest
  by_cases htwo : root.length = 2
  · have hempty : p.path ≠ [] := by
      intro hnil
      have hlength := congrArg List.length hp
      rw [hnil, List.length_append, List.length_nil, htwo] at hlength
      omega
    have hsub : p.path.substr 0 (root ++ name).length = root ++ name := by
      rw [hpath]
      exact substr_middle [] (root ++ name) rest
    rw [List.length_append] at hsub
    rw [htwo] at hscan hsub
    simp only [rootName, if_neg hempty, hskip, htwo, if_true, hscan, hsub]
  · by_cases hempty : p.path = []
    · rw [rootName, if_pos hempty, if_neg htwo]
    · simp only [rootName, if_neg hempty, hskip, if_neg htwo]

/-- A separator at the beginning, without a root name or behind one. -/
theorem rootDirectory_eq (hp : p.path = root ++ (name ++ rest)) (hroot : AllSeparators root)
    (hname : Plain name) (hrest : AtSeparator rest) (hend : name = [] → rest = []) :
    p.rootDirectory.path =
      if root = [] ∨ root.length = 2 ∧ rest = [] then [] else [separator] := by
  have hrootName := rootName_eq hp hroot hname hrest hend
  by_cases hnil : root = []
  · have hhead : p.path.head? ≠ some separator := by
      rw [hp, hnil]
      exact hname.head hend
    rw [rootDirectory, if_neg hhead, if_pos (.inl hnil)]
  · have hhead : p.path.head? = some separator := by
      obtain ⟨a, root, rfl⟩ := List.exists_cons_of_ne_nil hnil
      rw [hp, hroot a (by simp)]
      rfl
    simp only [rootDirectory, hhead, if_true, hrootName, hnil, false_or]
    by_cases htwo : root.length = 2
    · have hne : root ++ name ≠ [] := by simp [hnil]
      have hlength : (root ++ name).length < p.path.length ↔ rest ≠ [] := by
        have hsum : (root ++ name ++ rest).length = (root ++ name).length + rest.length :=
          List.length_append
        rw [hp, ← List.append_assoc, hsum]
        exact Nat.lt_add_right_iff_pos.trans List.length_pos_iff
      simp only [htwo, if_true, hne, false_or, hlength, true_and]
      by_cases hrestnil : rest = [] <;> simp [hrestnil]
    · simp [htwo]

theorem relativePath_eq (hp : p.path = root ++ (name ++ rest)) (hroot : AllSeparators root)
    (hname : Plain name) (hrest : AtSeparator rest) (hend : name = [] → rest = [])
    (hnul : (0 : UInt8) ∉ p.path) :
    p.relativePath.path = if root.length = 2 then rest.drop 1 else name ++ rest := by
  have hskip := skipSeparators_zero hp hroot (hname.head hend)
  have hpath : p.path = root ++ name ++ rest := by rw [hp, List.append_assoc]
  have hscan := skipName_eq hpath hname hrest
  by_cases hnil : root = []
  · have hhead : p.path.head? ≠ some separator := by
      rw [hp, hnil]
      exact hname.head hend
    rw [hnil, List.nil_append] at hp
    by_cases hempty : p.path = []
    · rw [relativePath, if_pos hempty, hnil, if_neg (by simp), ← hp, hempty]
    · rw [relativePath, if_neg hempty, if_neg hhead, hnil, if_neg (by simp), hp]
  · have hempty : p.path ≠ [] := by simp [hp, hnil]
    have hhead : p.path.head? = some separator := by
      obtain ⟨a, root, rfl⟩ := List.exists_cons_of_ne_nil hnil
      rw [hp, hroot a (by simp)]
      rfl
    by_cases htwo : root.length = 2
    · rw [htwo] at hscan
      simp only [relativePath, if_neg hempty, hhead, if_true, hskip, htwo, hscan]
      have hlength : 2 + name.length = (root ++ name).length := by rw [List.length_append, htwo]
      rw [hlength]
      cases rest with
      | nil =>
        rw [List.append_nil] at hpath
        have hchar : p.path.charAt (root ++ name).length ≠ separator := by
          rw [hpath, charAt_length]
          decide
        rw [if_neg hchar]
        exact fromPointer_eq hnul (by rw [hpath]; simp)
      | cons c rest =>
        obtain rfl : c = separator := hrest c rfl
        have hchar : p.path.charAt (root ++ name).length = separator := by
          have hat := charAt_append_right (u := root ++ name) (v := separator :: rest) 0
          rw [← hpath] at hat
          exact hat
        have hcut : p.path = (root ++ name ++ [separator]) ++ rest := by
          rw [hpath]
          simp
        have hbehind := fromPointer_eq hnul hcut
        rw [List.length_append, List.length_singleton] at hbehind
        rw [if_pos hchar, hbehind]
        rfl
    · simp only [relativePath, if_neg hempty, hhead, if_true, hskip, if_neg htwo]
      exact fromPointer_eq hnul hp

end

variable {p : Path}

/-! ## §2 Root and relative part -/

/-- A path has neither a root name nor a root directory just when it does not
begin with a separator. -/
theorem relative_iff (q : Path) (hnul : (0 : UInt8) ∉ q.path) :
    q.rootName.path = [] ∧ q.rootDirectory.path = [] ↔ q.path.head? ≠ some separator := by
  constructor
  · intro h hhead
    obtain ⟨hrootName, hrootDirectory⟩ := h
    rw [rootDirectory, if_pos hhead] at hrootDirectory
    simp [hrootName] at hrootDirectory
  · intro hhead
    obtain ⟨root, name, rest, hq, hroot, hname, hrest, hend⟩ := exists_split hnul
    have hnil : root = [] := by
      cases root with
      | nil => rfl
      | cons a root =>
        rw [hq, hroot a (by simp)] at hhead
        exact absurd rfl hhead
    rw [rootName_eq hq hroot hname hrest hend, rootDirectory_eq hq hroot hname hrest hend, hnil]
    simp

/-- Nothing is inserted in front of a separator, or of nothing. -/
theorem append_path_of (q : Path) (h : q.path = [] ∨ q.path.head? = some separator) :
    (p.append q).path = p.path ++ q.path := by
  rw [append, if_pos]
  tauto

/-- Nothing is inserted behind a separator, or behind nothing. -/
theorem append_path_behind (q : Path) (h : p.path = [] ∨ p.path.getLast? = some separator) :
    (p.append q).path = p.path ++ q.path := by
  rw [append, if_pos]
  tauto

theorem rootPath_eq (p : Path) : p.rootPath.path = p.rootName.path ++ p.rootDirectory.path := by
  refine append_path_of _ ?_
  rw [rootDirectory]
  split
  · dsimp only
    split
    · exact .inr rfl
    · exact .inl rfl
  · exact .inl rfl

/-- The relative part is relative, the root is its name and its directory, and
the two together have the elements of the path. -/
structure Recombines (p : Path) : Prop where
  relative : p.relativePath.rootName.path = [] ∧ p.relativePath.rootDirectory.path = []
  root : p.rootPath.path = p.rootName.path ++ p.rootDirectory.path
  elements : ∃ es, p.Yields es ∧ (p.rootPath.append p.relativePath).Yields es

/-- A root name with two or more separators behind it. -/
def SeparatedRoot (t : Text) : Prop :=
  ∃ name rest, t = [separator, separator] ++ (name ++ ([separator, separator] ++ rest)) ∧
    Plain name ∧ name ≠ []

/-- The root and the relative part have the elements of the path, if the
relative part does not begin with a separator. -/
theorem exists_yields_recombined (hnul : (0 : UInt8) ∉ p.path) (hne : p.relativePath.path ≠ []) :
    ∃ es, p.Yields es ∧ (p.rootPath.append p.relativePath).Yields es := by
  obtain ⟨root, name, rest, hp, hroot, hname, hrest, hend⟩ := exists_split hnul
  have hrelative := relativePath_eq hp hroot hname hrest hend hnul
  have hrootPath := rootPath_eq p
  rw [rootName_eq hp hroot hname hrest hend, rootDirectory_eq hp hroot hname hrest hend]
    at hrootPath
  -- without a change to the path there is nothing to prove
  have hsame : (p.rootPath.append p.relativePath).path = p.path →
      ∃ es, p.Yields es ∧ (p.rootPath.append p.relativePath).Yields es := by
    intro hpath
    have heq : p.rootPath.append p.relativePath = p := congrArg Path.mk hpath
    exact ⟨_, yields_elements p hnul, by rw [heq]; exact yields_elements p hnul⟩
  by_cases hnil : root = []
  · have hempty : p.rootPath.path = [] := by simpa [hnil] using hrootPath
    refine hsame ?_
    rw [append_path_behind _ (.inl hempty), hempty, hrelative, hp, hnil, if_neg (by simp)]
  by_cases htwo : root.length = 2
  · rw [if_pos htwo] at hrelative
    cases rest with
    | nil => exact absurd hrelative hne
    | cons c rest =>
      obtain rfl : c = separator := hrest c rfl
      have hdir : p.rootPath.path = root ++ name ++ [separator] := by
        simpa [hnil, htwo] using hrootPath
      refine hsame ?_
      rw [append_path_behind _ (.inr (by simp [hdir])), hdir, hrelative, hp]
      simp
  · rw [if_neg htwo] at hrelative
    have hnamene : name ≠ [] := fun h => hne (by rw [hrelative, h, hend h]; rfl)
    have hdir : p.rootPath.path = [separator] := by simpa [hnil, htwo] using hrootPath
    have hpath : (p.rootPath.append p.relativePath).path = [separator] ++ (name ++ rest) := by
      rw [append_path_behind _ (.inr (by rw [hdir]; rfl)), hdir, hrelative]
    have hpathnul : (0 : UInt8) ∉ (p.rootPath.append p.relativePath).path := by
      rw [hpath]
      intro h0
      rcases List.mem_append.mp h0 with h0 | h0
      · exact separator_ne_zero (List.mem_singleton.mp h0).symm
      · exact hnul (by rw [hp]; exact List.mem_append_right _ h0)
    have hone : AllSeparators [separator] := by simp [AllSeparators]
    have hsameElements : elements (p.rootPath.append p.relativePath).path = elements p.path := by
      rw [hpath, hp, elements_front hone hname hnamene hrest,
        elements_front hroot hname hnamene hrest, firstElements, firstElements, if_neg (by simp),
        if_neg (by simp), if_neg hnil, if_neg htwo]
    exact ⟨_, yields_elements p hnul, hsameElements ▸ yields_elements _ hpathnul⟩

/-- **A path is its root and its relative part**, but for one with more than one
separator behind a root name. -/
theorem recombines_iff (p : Path) (hnul : (0 : UInt8) ∉ p.path) (hne : p.relativePath.path ≠ []) :
    p.Recombines ↔ ¬ SeparatedRoot p.path := by
  obtain ⟨root, name, rest, hp, hroot, hname, hrest, hend⟩ := exists_split hnul
  have hrelative := relativePath_eq hp hroot hname hrest hend hnul
  have hrelativenul : (0 : UInt8) ∉ p.relativePath.path := by
    intro h0
    refine hnul ?_
    rw [hrelative] at h0
    rw [hp]
    split at h0
    · exact List.mem_append_right _ (List.mem_append_right _ (List.drop_subset _ _ h0))
    · exact List.mem_append_right _ h0
  have hhead := relative_iff p.relativePath hrelativenul
  constructor
  · intro h hseparated
    obtain ⟨other, behind, hpath, hother, hotherne⟩ := hseparated
    have hbehind := relativePath_eq hpath (by simp [AllSeparators]) hother
      (fun c hc => (Option.some.inj hc).symm) (fun hnil => absurd hnil hotherne) hnul
    refine hhead.mp h.relative ?_
    rw [hbehind]
    rfl
  · intro hseparated
    refine ⟨hhead.mpr fun hsep => ?_, rootPath_eq p, exists_yields_recombined hnul hne⟩
    rw [hrelative] at hsep hne
    by_cases htwo : root.length = 2
    · rw [if_pos htwo] at hsep hne
      -- the relative part begins with a second separator behind the root name
      cases rest with
      | nil => exact hne rfl
      | cons c rest =>
        obtain rfl : c = separator := hrest c rfl
        have hnamene : name ≠ [] := fun h => absurd (hend h) (by simp)
        cases rest with
        | nil => exact hne rfl
        | cons d rest =>
          obtain rfl : d = separator := Option.some.inj hsep
          obtain rfl := hroot.eq_double htwo
          exact hseparated ⟨name, rest, hp, hname, hnamene⟩
    · rw [if_neg htwo] at hsep
      exact hname.head hend hsep

/-- `"/a"`. -/
theorem recombines_iff_root : Recombines ⟨[47, 97]⟩ ↔ ¬ SeparatedRoot [47, 97] :=
  recombines_iff ⟨[47, 97]⟩ (by decide) (by decide)

/-- The relative part of `"//a//b"` is `"/b"`. -/
theorem not_always_recombines : ¬ ∀ p : Path, (0 : UInt8) ∉ p.path → p.relativePath.path ≠ [] →
    p.Recombines := by
  intro h
  have hrelative := (h ⟨[47, 47, 97, 47, 47, 98]⟩ (by decide) (by decide)).relative.2
  exact absurd hrelative (by decide)

end Acatl.Path
